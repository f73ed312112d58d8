import Fibers.Proofs.Acquisition
import Fibers.Proofs.Secrecy

/-!
# Pairs keep their children to themselves

Two resources at once are acquired by two children, and the fiber that has started them learns from
their exits what they have acquired.  In a prudent run it is the only one that does: from when it
starts a child until it has been handed both exits it does nothing with handles but wait for them,
and what it goes on with then follows on the exits alone.

A floor does not serve here as it does for effects that keep their children to themselves.  What
follows on both exits may release what has been acquired, and a release is code that may wait for
anything its author has been told of.  So the life of the fiber is gone through step by step: it is
watched while it goes on plainly, and has not been told of the child before that and after it.

## Main definitions

* `PlainUntil`, `Plainly` — a fiber that does nothing with the handle of another but wait for it,
  until it leaves off.
* `HandedBoth` — a fiber that has been handed the exits of both sides of a pair.
* `AskedOnce` — waits for a fiber, among others first and then for its exit.
* `Finishes` — what follows on both exits keeps a fiber secret.

## Main results

* `Plainly.raceBoth` — **a pair goes on plainly until it has been handed both exits.**
* `Workshop.PairFrame.plainly` — so does a fiber that has been handed the handle of one side.
* `Workshop.PrudentRun.discreet` — in a prudent run **nobody else waits for the children of a
  pair**.
-/

namespace Fibers

open Effect

/-! ### What a fiber does step by step -/

/-- Doings of a fiber that are plain as far as the fiber `c` is concerned, until one of them leaves
off in a way that `leaves` says; up to that one the fiber waits for `c` as `A` says. -/
def PlainUntil (fiber c : FiberId) (leaves : List Event → Event → Prop) (done : List Event)
    (A : List Registration → Prop) (ds : List Event) : Prop :=
  ∃ mid after, ds = mid ++ after ∧ (∀ e ∈ mid, e.Heeds c fiber .followed) ∧ A (waitsFor c mid) ∧
    ∀ e later, after = e :: later → leaves (done ++ mid) e

/-- Whatever the life of a fiber is from a standing on, it is plain until it leaves off, unless the
fiber `c` is started in it. -/
def Plainly (fiber c : FiberId) (p : Prospect) (leaves : List Event → Event → Prop)
    (done : List Event) (a : Standing) (A : List Registration → Prop) : Prop :=
  ∀ es b, Life fiber a es b → Truthful p es b → (∀ e ∈ es, ∀ daemon, e.starts? ≠ some (c, daemon)) →
    PlainUntil fiber c leaves done A (es.filter Event.isDoing)

section Plain

variable {fiber c : FiberId} {p : Prospect} {leaves : List Event → Event → Prop}
  {done : List Event} {run : RunState} {A : List Registration → Prop}
  {registration : Registration}

namespace PlainUntil

theorem nil (hA : A []) : PlainUntil fiber c leaves done A [] :=
  ⟨[], [], rfl, nofun, hA, nofun⟩

/-- Something plain, and what follows on it. -/
theorem cons {e : Event} {ds : List Event} (hplain : e.Heeds c fiber .followed)
    (h : PlainUntil fiber c leaves (done ++ [e]) (fun ws => A (waitsFor c [e] ++ ws)) ds) :
    PlainUntil fiber c leaves done A (e :: ds) := by
  obtain ⟨mid, after, rfl, hmid, hA, hleaves⟩ := h
  refine ⟨e :: mid, after, rfl, List.forall_mem_cons.mpr ⟨hplain, hmid⟩, ?_, ?_⟩
  · rwa [← List.singleton_append, waitsFor_append]
  · rwa [List.append_assoc, List.singleton_append] at hleaves

end PlainUntil

namespace Plainly

/-- The fiber leaves off. -/
theorem leave {step : Step} (hfalse : run.interruptible = false) (hA : A [])
    (h : ∀ w, leaves done (.iterated w run step)) :
    Plainly fiber c p leaves done (.active run step) A := by
  intro es b hlife _ _
  refine ⟨[], es.filter Event.isDoing, rfl, nofun, hA, fun e later heq => ?_⟩
  rw [List.append_nil]
  cases hlife with
  | rest => cases heq
  | go _ hgoes _ =>
    obtain ⟨w, rfl, -⟩ := hgoes.of_uninterruptible hfalse
    rw [List.filter_cons_of_pos rfl] at heq
    exact (List.cons.inj heq).1 ▸ h w

/-- An iteration that is no wait, and does not start the fiber. -/
theorem step_found {step : Step} (hfalse : run.interruptible = false) (hA : A [])
    (hwaits : ∀ w, waitsFor c [.iterated w run step] = [])
    (hplain : ∀ w, (Event.iterated w run step).Heeds c fiber .followed)
    (h : ∀ w : World, (∀ daemon, (Event.iterated w run step).starts? ≠ some (c, daemon)) →
      Plainly fiber c p leaves (done ++ [.iterated w run step])
        (w.after fiber (step.plan (w.pending fiber) fiber run)) A) :
    Plainly fiber c p leaves done (.active run step) A := by
  intro es b hlife htruthful hstarts
  cases hlife with
  | rest => exact .nil hA
  | go _ hgoes hrest =>
    obtain ⟨w, rfl, rfl⟩ := hgoes.of_uninterruptible hfalse
    obtain ⟨hfirst, hlater⟩ := List.forall_mem_cons.mp hstarts
    refine .cons (hplain w) ?_
    rw [hwaits]
    exact h w hfirst _ b hrest htruthful.tail hlater

/-- **An iteration that is no wait.** -/
theorem step {step : Step} (hfalse : run.interruptible = false) (hA : A [])
    (hwaits : ∀ w, waitsFor c [.iterated w run step] = [])
    (hplain : ∀ w, (Event.iterated w run step).Heeds c fiber .followed)
    (h : ∀ w : World, Plainly fiber c p leaves (done ++ [.iterated w run step])
      (w.after fiber (step.plan (w.pending fiber) fiber run)) A) :
    Plainly fiber c p leaves done (.active run step) A :=
  step_found hfalse hA hwaits hplain fun w _ => h w

/-- **A wait** ends with what is so. -/
theorem wait (hfalse : run.interruptible = false) (hA : A [])
    (hregistration : registration.Guards c true)
    (hA' : A ([registration].filter (Registration.isFor c)))
    (h : ∀ w o, registration.Answered p.final o →
      Plainly fiber c p leaves (done ++ [.iterated w run (.eval (.wait registration))])
        (.handed run o) fun ws => A ([registration].filter (Registration.isFor c) ++ ws)) :
    Plainly fiber c p leaves done (.active run (.eval (.wait registration))) A := by
  intro es b hlife htruthful hstarts
  cases hlife with
  | rest => exact .nil hA
  | @go _ _ _ e es _ hgoes hrest =>
    obtain ⟨w, rfl, rfl⟩ := hgoes.of_uninterruptible hfalse
    refine .cons (.wait rfl hregistration) ?_
    rcases Course.after_wait hrest with ⟨rfl, rfl⟩ | ⟨idle, more, step, rfl, hidle, -, hmore⟩
    · -- it waits in the end
      exact .nil ((List.append_nil _).symm ▸ hA')
    rcases htruthful.replies hidle hmore with
      ⟨w', more', d, rfl, hgoes'⟩ | ⟨-, ⟨o, rfl, hanswers⟩ | ⟨-, hallowed, -⟩⟩
    · obtain ⟨_, heq, -⟩ := hgoes'.of_uninterruptible hfalse
      cases heq
    · rw [List.filter_append, hidle, List.nil_append]
      exact h w o hanswers.1 more b hmore htruthful.tail.suffix fun e he =>
        hstarts e (List.mem_cons_of_mem _ (List.mem_append_right _ he))
    · rw [hfalse] at hallowed
      cases hallowed

end Plainly

end Plain

/-! ### Pairs -/

section Pair

variable {ε : ErrorType}

/-- What follows on the exit of one side of a pair: the other side is waited for. -/
def awaitOther (next : Exit Value Value → Exit Value Value → Action (Effect ε))
    (x : Exit Value Value) (other : Fiber ε) : Action (Effect ε) :=
  pure ((other.awaitExit : Effect ε).chainAs (next x))

/-- A fiber that has been handed the exit of one side of a pair is handed that of the other. -/
inductive HandedBoth (next₁ next₂ : Exit Value Value → Exit Value Value → Action (Effect ε))
    (rest : List Frame) (done : List Event) : Event → Prop where
  | intro {w w' : World} {run run' : RunState} {x y : Exit Value Value}
      {next : Exit Value Value → Exit Value Value → Action (Effect ε)} :
      (next = next₁ ∨ next = next₂) →
      run.stack = .chain (expecting (next x)) :: .popStatus :: rest →
      .iterated w' run' (.value (.exit x)) ∈ done →
      HandedBoth next₁ next₂ rest done (.iterated w run (.value (.exit y)))

variable {fiber c : FiberId} {p : Prospect} {done : List Event} {run : RunState}
  {A : List Registration → Prop}
  {next next₁ next₂ : Exit Value Value → Exit Value Value → Action (Effect ε)} {l r : Fiber ε}

/-- One of two fibers is the one in question. -/
theorem filter_awaitExit {first other : FiberId} (hc : c = first ∨ c = other)
    (hne : first ≠ other) :
    ([.awaitExit first ε].filter (Registration.isFor c) = [.awaitExit c ε] ∧
      [.awaitExit other ε].filter (Registration.isFor c) = []) ∨
    ([.awaitExit first ε].filter (Registration.isFor c) = [] ∧
      [.awaitExit other ε].filter (Registration.isFor c) = [.awaitExit c ε]) := by
  rcases hc with rfl | rfl
  · exact Or.inl ⟨by simp [Registration.isFor], by simp [Registration.isFor, hne.symm]⟩
  · exact Or.inr ⟨by simp [Registration.isFor, hne], by simp [Registration.isFor]⟩

/-- A fiber is waited for among others first, and then at most once for its exit. -/
def AskedOnce (c : FiberId) (ws : List Registration) : Prop :=
  ∃ first type, (∀ type', first ≠ .awaitExit c type') ∧ ws <+: [first, .awaitExit c type]

theorem askedOnce_of_asked {f g : FiberId} {ws : List Registration}
    (h : ws <+: [.firstDone f g, .awaitExit c ε]) : AskedOnce c ws :=
  ⟨.firstDone f g, ε, fun _ => nofun, h⟩

theorem askedOnce_nil (c : FiberId) : AskedOnce c [] :=
  @askedOnce_of_asked ⟨""⟩ c c c [] List.nil_prefix

/-- A wait is for a fiber that may be waited for. -/
theorem Registration.guards_awaitExit (f : FiberId) (ε : ErrorType) :
    (Registration.awaitExit f ε).Guards c true := .awaitExit ε fun _ => rfl

namespace Plainly

/-- **One side of a pair after the other.** -/
theorem settlePair {first other : Fiber ε} (hfalse : run.interruptible = false)
    (hnext : next = next₁ ∨ next = next₂) (hc : c = first.id ∨ c = other.id)
    (hne : first.id ≠ other.id) (hA : A []) (hA' : A [.awaitExit c ε]) :
    Plainly fiber c p (HandedBoth next₁ next₂ run.stack) done (.active run (.eval
      ((first.awaitExit : Effect ε).chainAs fun x : Exit Value Value => do
        let handled ← awaitOther next x other
        pure (Restore.apply ⟨false⟩ handled)))) A := by
  obtain ⟨ws₁, hws₁⟩ : ∃ ws, [.awaitExit first.id ε].filter (Registration.isFor c) = ws := ⟨_, rfl⟩
  obtain ⟨ws₂, hws₂⟩ : ∃ ws, [.awaitExit other.id ε].filter (Registration.isFor c) = ws := ⟨_, rfl⟩
  have hwaits : A (ws₁ ++ []) ∧ A (ws₁ ++ (ws₂ ++ [])) := by
    rw [List.append_nil, List.append_nil, ← hws₁, ← hws₂]
    rcases @filter_awaitExit ε c _ _ hc hne with ⟨h₁, h₂⟩ | ⟨h₁, h₂⟩ <;> rw [h₁, h₂]
    · exact ⟨hA', hA'⟩
    · exact ⟨hA, hA'⟩
  -- the first exit
  refine step hfalse hA (fun _ => rfl) (fun _ => .proceed rfl (Step.told_eval c _)) fun _ => ?_
  refine wait hfalse hA (Registration.guards_awaitExit _ _) ?_ fun w o ho => ?_
  · rw [hws₁, ← List.append_nil ws₁]
    exact hwaits.1
  obtain ⟨-, x, rfl⟩ := ho
  rw [hws₁]
  -- the region of the other wait
  refine step hfalse hwaits.1 (fun _ => rfl) (fun _ => .build rfl) fun w' => ?_
  refine step hfalse hwaits.1 (fun _ => rfl) (fun _ => .proceed rfl (Step.told_eval c _))
    fun _ => ?_
  refine step rfl hwaits.1 (fun _ => rfl) (fun _ => .proceed rfl (Step.told_eval c _)) fun _ => ?_
  refine wait rfl hwaits.1 (Registration.guards_awaitExit _ _) ?_ fun w o ho => ?_
  · rw [hws₂, ← List.append_nil ws₂]
    exact hwaits.2
  obtain ⟨-, y, rfl⟩ := ho
  rw [hws₂]
  exact leave rfl hwaits.2 fun _ => .intro hnext rfl (List.mem_append_left _
    (List.mem_append_left _ (List.mem_append_left _ (List.mem_append_right _ List.mem_cons_self))))

/-- **A pair that has been started** goes on plainly until it has been handed both exits. -/
theorem raceBoth (hfalse : run.interruptible = false) (hc : c = l.id ∨ c = r.id)
    (hne : l.id ≠ r.id) : Plainly fiber c p (HandedBoth next₁ next₂ run.stack) done
      (.active run (.eval (Effect.raceBoth (awaitOther next₁) (awaitOther next₂) l r)))
      (AskedOnce c) := by
  have hnone := askedOnce_nil c
  have hfirst : AskedOnce c [.firstDone l.id r.id] :=
    @askedOnce_of_asked ε c _ _ _ (List.prefix_append _ _)
  have hboth : AskedOnce c [.firstDone l.id r.id, .awaitExit c ε] :=
    askedOnce_of_asked List.prefix_rfl
  have hfilter : [Registration.firstDone l.id r.id].filter (Registration.isFor c) =
      [.firstDone l.id r.id] := by
    rcases hc with rfl | rfl <;> simp [Registration.isFor]
  refine step hfalse hnone (fun _ => rfl) (fun _ => .proceed rfl (Step.told_eval c _)) fun _ => ?_
  refine step hfalse hnone (fun _ => rfl) (fun _ => .proceed rfl (Step.told_eval c _)) fun _ => ?_
  refine wait rfl hnone (.firstDone (fun _ => rfl) fun _ => rfl) (hfilter.symm ▸ hfirst)
    fun w o ho => ?_
  obtain ⟨leftFirst, rfl, -⟩ := ho
  simp only [hfilter]
  refine step rfl hfirst (fun _ => rfl) (fun _ => .proceed rfl (Step.told_bool c _)) fun _ => ?_
  refine step hfalse hfirst (fun _ => rfl) (fun _ => .build rfl) fun _ => ?_
  cases leftFirst with
  | true => exact settlePair hfalse (Or.inl rfl) hc hne hfirst hboth
  | false => exact settlePair hfalse (Or.inr rfl) hc.symm hne.symm hfirst hboth

end Plainly

/-! ### What those who have not been told finish with -/

/-- What follows on both exits of a pair keeps to a clearance if those do not tell of the fiber. -/
def Finishes (c : FiberId) (t : Bool)
    (next : Exit Value Value → Exit Value Value → Action (Effect ε)) : Prop :=
  ∀ x y : Exit Value Value, x.Omits c → y.Omits c → Builds c ⟨false, t⟩ (next x y)

variable {t : Bool} {rest : List Frame}

/-- A pair without a clearance waits for others only, and goes on with what has not been told. -/
theorem Effect.Guards.of_raceBoth
    (h : (Effect.raceBoth (awaitOther next₁) (awaitOther next₂) l r).Guards c ⟨false, t⟩) :
    l.id ≠ c ∧ Finishes c t next₁ ∧ Finishes c t next₂ := by
  have hsettles : ∀ {other : Fiber ε} {x : Exit Value Value}
      {next : Exit Value Value → Exit Value Value → Action (Effect ε)},
      Builds c ⟨false, t⟩ (awaitOther next x other >>= fun handled =>
        pure (Restore.apply ⟨false⟩ handled)) →
      ∀ y : Exit Value Value, y.Omits c → Builds c ⟨false, t⟩ (next x y) := fun hbuilds y hy =>
    (of_chainAs (of_restored hbuilds.of_done)).2 _ y (.of_exit hy) rfl
  cases h with
  | fold hwait _ hdone =>
    have hside : ∀ leftFirst : Bool, Effect.Guards c ⟨false, t⟩ (Effect.settleRace ⟨false⟩ l r
        (awaitOther next₁) (awaitOther next₂) leftFirst) := fun leftFirst =>
      (hdone (.bool leftFirst) (.inr (.bool leftFirst))).of_done
    refine ⟨fun heq => ?_, fun x y hx => ?_, fun x y hx => ?_⟩
    · cases of_restored hwait with
      | wait hregistration =>
        cases hregistration with
        | firstDone hl _ => exact Bool.false_ne_true (hl heq)
    · exact hsettles ((of_chainAs (hside true)).2 _ x (.of_exit hx) rfl) y
    · exact hsettles ((of_chainAs (hside false)).2 _ x (.of_exit hx) rfl) y

/-- A handle of another fiber. -/
theorem exists_other (c : FiberId) : ∃ d, (Value.fiber d).Omits c :=
  ⟨⟨c.raw + 1⟩, .fiber fun heq => absurd (congrArg FiberId.raw heq) (Nat.succ_ne_self _)⟩

/-- Whoever is about to be handed the right side of a pair. -/
theorem Takes.of_rightFrame
    (h : Takes c none ⟨false, t⟩ (rightFrame (awaitOther next₁) (awaitOther next₂) l :: rest)) :
    l.id ≠ c ∧ ∃ t', Takes c none ⟨false, t'⟩ rest ∧ Finishes c t' next₁ ∧ Finishes c t' next₂ := by
  obtain ⟨d, hd⟩ := exists_other c
  cases h with
  | chain hnext hrest =>
    obtain ⟨hl, hfinish⟩ := Effect.Guards.of_raceBoth (r := ⟨d⟩) (hnext _ hd.cleared).of_done
    exact ⟨hl, _, hrest, hfinish⟩

/-- Whoever is about to be handed the left side of a pair starts the right one. -/
theorem Takes.of_leftFrame {right : Effect ε}
    (h : Takes c none ⟨false, t⟩ (leftFrame right (awaitOther next₁) (awaitOther next₂) :: rest)) :
    (Restore.apply ⟨false⟩ right).Guards c .none ∧
      ∃ t', Takes c none ⟨false, t'⟩ rest ∧ Finishes c t' next₁ ∧ Finishes c t' next₂ := by
  obtain ⟨d, hd⟩ := exists_other c
  cases h with
  | chain hnext hrest =>
    obtain ⟨⟨_, hright⟩, hpair⟩ := Effect.Guards.of_chainAs (hnext _ hd.cleared).of_done
    obtain ⟨-, hfinish⟩ := Effect.Guards.of_raceBoth (l := ⟨d⟩) (hpair _ ⟨d⟩ hd rfl).of_done
    exact ⟨Effect.Guards.of_fork hright, _, hrest, hfinish⟩

namespace Plainly

/-- What a fiber does with the handle of the right side of a pair. -/
theorem rightFrame (hfalse : run.interruptible = false) (hl : l.id ≠ c) :
    Plainly fiber c p (HandedBoth next₁ next₂ run.stack) done
      (.active (run.push (Effect.rightFrame (awaitOther next₁) (awaitOther next₂) l))
        (.value (.fiber c))) (AskedOnce c) := by
  refine step hfalse (askedOnce_nil c) (fun _ => rfl) (fun _ => .build rfl) fun _ => ?_
  exact @raceBoth ε fiber c p _ run next₁ next₂ l ⟨c⟩ hfalse (Or.inr rfl) hl

/-- What a fiber does with the handle of the left side of a pair. -/
theorem leftFrame {right : Effect ε} (hfalse : run.interruptible = false)
    (hright : (Restore.apply ⟨false⟩ right).Guards c .none) :
    Plainly fiber c p (HandedBoth next₁ next₂ run.stack) done
      (.active (run.push (Effect.leftFrame right (awaitOther next₁) (awaitOther next₂)))
        (.value (.fiber c))) (AskedOnce c) := by
  refine step hfalse (askedOnce_nil c) (fun _ => rfl) (fun _ => .build rfl) fun _ => ?_
  refine step hfalse (askedOnce_nil c) (fun _ => rfl) (fun _ => .proceed rfl (Step.told_eval c _))
    fun _ => ?_
  refine step_found hfalse (askedOnce_nil c) (fun _ => rfl) (fun _ => .fork false rfl hright)
    fun w hw => ?_
  have hne : c ≠ w.store.nextFiber := fun heq =>
    hw false (congrArg (fun c => some (c, false)) heq.symm)
  refine step hfalse (askedOnce_nil c) (fun _ => rfl) (fun _ => .build rfl) fun _ => ?_
  exact @raceBoth ε fiber c p _ run next₁ next₂ ⟨c⟩ ⟨w.store.nextFiber⟩ hfalse (Or.inl rfl) hne

end Plainly

/-- **Whoever has been handed both exits of a pair has not been told of its children.** -/
theorem HandedBoth.runs {w : World} {step : Step}
    (h : HandedBoth next₁ next₂ rest done (.iterated w run step))
    (hrest : Takes c none ⟨false, t⟩ rest) (h₁ : Finishes c t next₁) (h₂ : Finishes c t next₂)
    (hdone : ∀ e ∈ done, e.Guards c .followed) (hruns : Watch.followed.Runs c run step) :
    (Watch.keeps none).Runs c run step := by
  cases h with
  | @intro _ _ _ _ x y next hnext hstack hx =>
    have hfinishes : Finishes c t next := by
      rcases hnext with rfl | rfl
      · exact h₁
      · exact h₂
    have hx := (hdone _ hx).2 x rfl
    have hy := hruns.2 y rfl
    refine ⟨false, ⟨?_, hruns.1⟩, (Value.Omits.of_exit hy).cleared⟩
    rw [hstack]
    refine .chain (fun v hv => ?_) (.popStatus hrest)
    exact Effect.Guards.expecting reads_exits (fun y hy => hfinishes x y hx hy) hv

end Pair

namespace Workshop

variable {budget minted : Nat} {s : Workshop} {record : List (FiberId × Event)}
  {told : FiberId → Prop} {f c : FiberId} {w : World} {run : RunState} {frame : Frame} {t : Bool}
  {done : List Event} {p : Prospect}

/-- **What a fiber does with the handle of a side of a pair**, and what it has left to do then. -/
theorem PairFrame.plainly (h : PairFrame frame) (hfalse : run.interruptible = false)
    (htakes : Takes c none ⟨false, t⟩ (frame :: run.stack)) :
    ∃ (ε : ErrorType) (next₁ next₂ : Exit Value Value → Exit Value Value → Action (Effect ε)),
      Plainly f c p (HandedBoth next₁ next₂ run.stack) done
        (.active (run.push frame) (.value (.fiber c))) (AskedOnce c) ∧
      ∃ t', Takes c none ⟨false, t'⟩ run.stack ∧ Finishes c t' next₁ ∧ Finishes c t' next₂ := by
  cases h with
  | @left ε b g =>
    obtain ⟨hright, hrest⟩ := @Takes.of_leftFrame ε c (fun x y => Resource.settleBoth g x y)
      (fun x y => Resource.settleBoth g y x) t _ _ htakes
    exact ⟨ε, _, _, .leftFrame hfalse hright, hrest⟩
  | @right ε g l =>
    obtain ⟨hl, hrest⟩ := @Takes.of_rightFrame ε c (fun x y => Resource.settleBoth g x y)
      (fun x y => Resource.settleBoth g y x) l t _ htakes
    exact ⟨ε, _, _, .rightFrame hfalse hl, hrest⟩

/-- What a fiber has done before and after an iteration. -/
theorem History.around {es : List Event} {a : Standing} {step : Step}
    (h : History s record f es a) (hmem : (f, .iterated w run step) ∈ record) :
    ∃ past later, History s record f (past ++ .iterated w run step :: later) a ∧
      Life f (w.after f (step.plan (w.pending f) f run)) later a := by
  obtain ⟨past, later, rfl⟩ := List.append_of_mem ((h.mem_iff rfl).mpr hmem)
  obtain ⟨b, -, hlife⟩ := Course.of_append h.life
  cases hlife with
  | go _ hgoes hlater =>
    cases hgoes with
    | iterated _ => exact ⟨past, later, h, hlater⟩

/-- A prudent run can be cut where a fiber goes on with something, if it does. -/
theorem Prudent.before_leaving {told₁ : FiberId → Prop} {s₁ : Workshop} {mid rest : List Event}
    {after : List (FiberId × Event)} {e : Event} {leaves : Event → Prop}
    (h : Prudent budget told₁ s₁ ((f, e) :: after) told s) (hafter : eventsOf f after = mid ++ rest)
    (hleaves : ∀ e' later, rest = e' :: later →
      leaves e' ∧ ∃ w run v, e' = .iterated w run (.value v)) :
    ∃ during later told₂ s₂, after = during ++ later ∧ eventsOf f during = mid ∧
      Prudent budget told₁ s₁ ((f, e) :: during) told₂ s₂ ∧ Prudent budget told₂ s₂ later told s ∧
      (later = [] ∨ ∃ w run step, leaves (.iterated w run step) ∧ s₂.IsAbout f run step) := by
  cases rest with
  | nil =>
    rw [List.append_nil] at hafter
    exact ⟨after, [], told, s, (List.append_nil _).symm, hafter, h, .rest, Or.inl rfl⟩
  | cons e' more =>
    obtain ⟨hleaves, w, run, v, rfl⟩ := hleaves _ _ rfl
    obtain ⟨during, later, rfl, hduring, -⟩ := exists_record_of_eventsOf hafter
    rw [← List.cons_append] at h
    obtain ⟨told₂, s₂, h₁, h₂, habout⟩ := h.before_iteration fun _ _ => nofun
    exact ⟨during, _, told₂, s₂, rfl, hduring, h₁, h₂, Or.inr ⟨_, _, _, hleaves, habout⟩⟩

/-- A fiber that has been started is not started again. -/
theorem Run.not_started_again {s₁ : Workshop} {e : Event} {after : List (FiberId × Event)}
    {later : List Event} {daemon : Bool} (h : Run budget s₁ ((f, e) :: after) s) (hvalid : s₁.Valid)
    (hstarts : e.starts? = some (c, daemon))
    (hlater : eventsOf f after = later.filter Event.isDoing) :
    ∀ e' ∈ later, ∀ daemon', e'.starts? ≠ some (c, daemon') := by
  intro e' hmem daemon' hagain
  obtain ⟨w, run, i, rfl, -⟩ := Event.of_starts hstarts
  obtain ⟨s₂, hfirst, hsecond⟩ := @Run.cut _ _ _ _ _ _ _ [] after h
  have hborn := hfirst.isSome_of_forked hvalid ⟨_, List.mem_cons_self, hstarts⟩
  have hdoing : e'.isDoing = true := by
    obtain ⟨_, _, _, rfl, -⟩ := Event.of_starts hagain
    rfl
  exact hsecond.not_forked_of_born (hfirst.valid hvalid) hborn daemon' f
    ⟨e', mem_eventsOf.mp (hlater ▸ List.mem_filter.mpr ⟨hmem, hdoing⟩), hagain⟩

/-- **In a prudent run nobody else waits for the children of a pair.** -/
theorem PrudentRun.discreet (h : PrudentRun budget minted record s) : Discreet s record := by
  obtain ⟨told, h⟩ := h
  intro f w run frame ε a hframe hfalse htop hmem
  have hrun := h.run
  obtain ⟨es, b, hhistory⟩ := hrun.history f
  obtain ⟨past, later, hhistory, hlife⟩ := hhistory.around hmem
  have hdoings := hhistory.doings
  rw [List.filter_append, List.filter_cons_of_pos rfl] at hdoings
  obtain ⟨before, after, rfl, -, hafter⟩ := exists_record_of_eventsOf hdoings.symm
  obtain ⟨told₁, s₁, h₁, hlater, habout₁⟩ := h.before_iteration fun _ _ => nofun
  have honce := hlater.run.not_started_again (h₁.run.valid (valid_init minted)) rfl hafter
  -- whoever starts the child has not been told of it
  obtain ⟨hs₁, -, -⟩ := h₁.guards_before hlater.run ⟨_, List.mem_cons_self, rfl⟩
  obtain ⟨t, htakes, hguards⟩ := hs₁.runs habout₁
  have hchild := Effect.Guards.of_fork hguards
  obtain ⟨stack, environments, statuses⟩ := run
  cases stack with
  | nil => cases htop
  | cons top rest =>
    obtain rfl := Option.some.inj htop
    obtain ⟨ε', next₁, next₂, hplainly, t', hrest, hnext₁, hnext₂⟩ :=
      @PairFrame.plainly f w.store.nextFiber ⟨rest, environments, statuses⟩ top t []
        (heard s _ f) hframe hfalse htakes.stack
    obtain ⟨mid, later', hlater', hmid, ⟨first, type, hamong, hwaited⟩, hleaves⟩ :=
      hplainly later b hlife (hrun.truthful (hrun.foresees_heard f) hhistory).tail honce
    -- until it has been handed both exits it is watched step by step
    obtain ⟨during, rest', told₂, s₂, rfl, hduring, h₂, h₃, habout₂⟩ :=
      hlater.before_leaving (hafter.trans hlater') fun e later heq =>
        ⟨hleaves e later heq, by cases hleaves e later heq with | intro => exact ⟨_, _, _, rfl⟩⟩
    have hown : ∀ {start : Event}, eventsOf f ((f, start) :: during) = start :: mid := by
      intro start
      rw [← List.singleton_append, eventsOf_append, eventsOf_self, hduring, List.singleton_append]
    have hstart : Watch.followed.Runs w.store.nextFiber ⟨top :: rest, environments, statuses⟩
        (.eval (.fork (Restore.apply ⟨false⟩ a.reserve) false)) := ⟨htakes.environments, nofun⟩
    obtain ⟨hnobody, hwaits⟩ := h₁.awaited_between h₂ h₃ ⟨_, List.mem_cons_self, rfl⟩ habout₁ hstart
      (hown ▸ List.forall_mem_cons.mpr ⟨.fork false rfl hchild, hmid⟩)
      (habout₂.imp_right fun ⟨w', run', step', hboth, habout₂⟩ => ⟨run', step', habout₂,
        fun hguards => hboth.runs hrest hnext₁ hnext₂ fun e he =>
          hguards e (hown ▸ List.mem_cons_of_mem _ he)⟩)
    refine ⟨first, type, ?_, hnobody, fun x => ?_, hamong⟩
    · rw [← List.cons_append, hwaits, hown]
      exact hwaited
    · exact hrun.not_reported_of_forked ⟨_, hmem, rfl⟩ x

end Workshop

end Fibers
