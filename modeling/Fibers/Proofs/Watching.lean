import Fibers.Proofs.Relaying

/-!
# Asking to be told

A fiber that waits for others asks each of them, in order, to be told when it has finished.  Who has
finished by then tells it at once, and only the first one that decides the wait is heard.  So a wait
that is over when all have been asked has been decided by the first one in the order of asking,
whichever of them has finished first; and a place that is still open is going to be told by all the
others, apart from those that have nothing to tell.

## Main definitions

* `World.Nascent` — a place at which a wait is being registered.
* `World.Watches` — some fibers have been asked.
* `Registration.candidates`, `Registration.verdict` — who may decide a wait, and what is told then.
* `World.Decides`, `World.DecidesFirst` — a fiber has finished in a way that decides a wait, and is
  the first one in order that has.

## Main results

* `World.posts_of_registering` — who is still to decide a wait is going to tell.
* `World.first_of_early`, `World.first_of_park` — **a wait that is over at once has been decided by
  the first one in order.**
* `World.not_decides_of_park` — nobody has decided a wait for which a fiber is parked.
-/

namespace Fibers

/-- The fibers the first of which decides a wait, in the order in which they are asked. -/
def Registration.candidates : Registration → List FiberId
  | .firstDone left right => [left, right]
  | .firstFailure children => children
  | .callback _ | .sleep _ | .awaitExit _ _ | .offer _ _ | .take _ | .awaitClose _ => []

/-- What is told when the one at a position decides. -/
def Registration.verdict (registration : Registration) (i : Nat) : Value :=
  match registration with
  | .firstDone _ _ => .bool (i = 0)
  | .firstFailure _ => .some (.int i)
  | .callback _ | .sleep _ | .awaitExit _ _ | .offer _ _ | .take _ | .awaitClose _ => .unit

/-! ### While a wait is registered -/

namespace World

variable {w w' : World} {s : SuspensionId} {fiber : FiberId}

/-- A place at which a wait is being registered, or has been completed in the meantime. -/
def Nascent (w : World) (s : SuspensionId) : Prop :=
  ∃ p, w.suspension? s = some p ∧ (p.state = .registering ∨ ∃ o, p.state = .early o)

theorem Nascent.of_suspensions (h : w.Nascent s) (hs : w'.suspensions = w.suspensions) :
    w'.Nascent s := by
  obtain ⟨p, hp, hstate⟩ := h
  exact ⟨p, by rwa [suspension?, hs], hstate⟩

theorem Nascent.resume (h : w.Nascent s) (t : SuspensionId) (o : Outcome) :
    (w.resume t o).2.Nascent s := by
  obtain ⟨p, hp, hstate⟩ := h
  rw [Nascent, suspension?_resume]
  split
  · next heq =>
    have hcompleted : ∃ o', p.state.completed o = .early o' := by
      rcases hstate with hstate | ⟨o', hstate⟩ <;> rw [hstate] <;> exact ⟨_, rfl⟩
    rw [← heq, hp]
    exact ⟨_, rfl, Or.inr hcompleted⟩
  · exact ⟨p, hp, hstate⟩

theorem Nascent.notify (h : w.Nascent s) (fiber : FiberId) (observer : Observer) :
    (w.notify fiber observer).Nascent s := by
  have htaken := h.of_suspensions (w.quiet_takeExit fiber).suspensions
  cases observer with
  | report type => exact htaken.of_suspensions rfl
  | exitTo waiter type =>
    simp only [World.notify]
    have hresumed := htaken.resume waiter (.done (.exit ((w.takeExit fiber).1.untag type)))
    split
    · next heq => rwa [heq] at hresumed
    · next heq =>
      rw [heq] at hresumed
      exact hresumed.of_suspensions rfl
  | firstDone waiter left => exact h.resume waiter _
  | firstFailure waiter children position =>
    simp only [World.notify]
    split
    · exact h.resume waiter _
    · exact h

theorem Nascent.observe (h : w.Nascent s) (fiber : FiberId) (observer : Observer) :
    (w.observe fiber observer).Nascent s := by
  unfold World.observe
  split
  · exact h.notify fiber observer
  · exact h.of_suspensions rfl

/-- A wait for other fibers or an alarm is completed at most once while it is registered. -/
theorem Nascent.register (h : w.Nascent s) {registration : Registration}
    (hothers : registration.isFree = false) : (w.register s registration).2.Nascent s := by
  cases registration with
  | awaitExit fiber type => exact h.observe fiber _
  | firstDone left right => exact (h.observe left _).observe right _
  | firstFailure children =>
    simp only [World.register, observeChildren]
    generalize children.zipIdx = positions
    induction positions generalizing w with
    | nil => exact h
    | cons c positions ih => exact ih (h.observe c.1 _)
  | sleep millis => exact h.of_suspensions rfl
  | callback _ | offer _ _ | take _ | awaitClose _ => cases hothers

/-- At a new place nobody is over with a wait for other fibers or an alarm. -/
theorem nascent_newSuspension {allowed : Bool} {registration : Registration} {w₁ : World}
    (hnew : w.newSuspension fiber allowed registration = (s, w₁))
    (hothers : registration.isFree = false) : (w₁.register s registration).2.Nascent s := by
  obtain rfl : (w.newSuspension fiber allowed registration).1 = s := by rw [hnew]
  obtain rfl : (w.newSuspension fiber allowed registration).2 = w₁ := by rw [hnew]
  exact Nascent.register ⟨_, (suspension?_newSuspension w fiber allowed registration _).trans
    (if_pos rfl), Or.inl rfl⟩ hothers

/-- Telling an exit to a place is the end of the wait there. -/
theorem isOver_notify_exitTo {p : Suspension} (hp : w.suspension? s = some p) (fiber : FiberId)
    (type : ErrorType) : (w.notify fiber (.exitTo s type)).isOver s = true := by
  have hsusp := (w.quiet_takeExit fiber).suspensions
  have hp' : (w.takeExit fiber).2.suspension? s = some p := by rwa [suspension?, hsusp]
  simp only [notify]
  have hover := isOver_resume hp' (.done (.exit ((w.takeExit fiber).1.untag type))) s
  rw [if_pos rfl] at hover
  split
  · next heq => rwa [heq] at hover
  · next heq =>
    rw [heq] at hover
    exact (isOver_of_suspensions rfl s).trans hover

/-- Telling a place is the end of the wait there, unless nothing has been decided by it. -/
theorem isOver_of_notify {p : Suspension} (hp : w.suspension? s = some p) {o : Observer}
    (ho : o ∈ p.registration.observers s fiber) :
    (w.notify fiber o).isOver s = true ∨
      w.notify fiber o = w ∧ w.store.hasFailed fiber = false ∧
        ∃ t children i, o = .firstFailure t children i := by
  have hresume : ∀ outcome, (w.resume s outcome).2.isOver s = true := fun outcome =>
    (isOver_resume hp outcome s).trans (if_pos rfl)
  cases hregistration : p.registration with
  | awaitExit f type =>
    rw [hregistration, Registration.mem_observers_awaitExit] at ho
    obtain ⟨rfl, rfl⟩ := ho
    exact Or.inl (isOver_notify_exitTo hp f type)
  | firstDone left right =>
    rw [hregistration, Registration.mem_observers_firstDone] at ho
    obtain ⟨b, rfl, -⟩ := ho
    exact Or.inl (hresume _)
  | firstFailure children =>
    rw [hregistration, Registration.mem_observers_firstFailure] at ho
    obtain ⟨i, -, rfl⟩ := ho
    simp only [notify]
    split
    · exact Or.inl (hresume _)
    · next hnone =>
      refine Or.inr ⟨rfl, ?_, s, children, i, rfl⟩
      unfold failureVerdict at hnone
      split at hnone
      · cases hnone
      · next hfailed => exact Bool.eq_false_iff.mpr hfailed
  | callback _ | sleep _ | offer _ _ | take _ | awaitClose _ =>
    rw [hregistration] at ho
    cases ho

/-! ### Asking several -/

/-- Whether a fiber is known to have failed is a matter of its exit. -/
theorem hasFailed_modifyFiber (w : World) (id f : FiberId) {g : FiberRecord → FiberRecord}
    (hg : ∀ r, (g r).exit = r.exit) :
    (w.modifyFiber id g).store.hasFailed f = w.store.hasFailed f := by
  simp only [Store.hasFailed, modifyFiber, Store.fiber?_modifyFiber]
  split
  · next heq =>
    subst heq
    cases w.store.fiber? f with
    | none => rfl
    | some r => simp only [Option.map_some, Option.any_some, FiberRecord.hasFailed, hg]
  · rfl

/-- Some fibers have been asked, or have told at once that they have finished. -/
structure Watches (w w' : World) : Prop where
  finished : ∀ f, w'.store.isFinished f = w.store.isFinished f
  failed : ∀ f, w'.store.hasFailed f = w.store.hasFailed f
  absent : ∀ {f}, w'.store.fiber? f = none → w.store.fiber? f = none
  willTell : ∀ {f o}, w.WillTell f o → w'.WillTell f o
  /-- A place stays as it is, or is over. -/
  place : ∀ {t p}, w.suspension? t = some p → ∃ p', w'.suspension? t = some p' ∧
    p'.registration = p.registration ∧
      (p'.state = p.state ∨ p.state.isOver = false ∧ p'.state.isOver = true)

namespace Watches

theorem refl (w : World) : w.Watches w :=
  ⟨fun _ => rfl, fun _ => rfl, id, id, fun hp => ⟨_, hp, rfl, Or.inl rfl⟩⟩

theorem trans {w'' : World} (h : w.Watches w') (h' : w'.Watches w'') : w.Watches w'' where
  finished f := (h'.finished f).trans (h.finished f)
  failed f := (h'.failed f).trans (h.failed f)
  absent hf := h.absent (h'.absent hf)
  willTell htell := h'.willTell (h.willTell htell)
  place hp := by
    obtain ⟨p', hp', hregistration, hstate⟩ := h.place hp
    obtain ⟨p'', hp'', hregistration', hstate'⟩ := h'.place hp'
    refine ⟨p'', hp'', hregistration'.trans hregistration, ?_⟩
    rcases hstate with heq | ⟨hopen, hover⟩
    · rwa [heq] at hstate'
    · refine Or.inr ⟨hopen, ?_⟩
      rcases hstate' with heq | ⟨hopen', -⟩
      · rwa [heq]
      · rw [hover] at hopen'
        cases hopen'

/-- A wait is completed. -/
theorem resume (w : World) (s : SuspensionId) (outcome : Outcome) :
    w.Watches (w.resume s outcome).2 where
  finished f := by rw [store_resume]
  failed f := by rw [store_resume]
  absent hf := by rwa [store_resume] at hf
  willTell htell := by rwa [WillTell, store_resume]
  place {t p} hp := by
    rw [suspension?_resume]
    split
    · next heq =>
      subst heq
      refine ⟨{ p with state := p.state.completed outcome }, by rw [hp, Option.map_some], rfl, ?_⟩
      change p.state.completed outcome = p.state ∨
        p.state.isOver = false ∧ (p.state.completed outcome).isOver = true
      cases p.state with
      | registering | waiting _ _ => exact Or.inr ⟨rfl, rfl⟩
      | _ => exact Or.inl rfl
    · exact ⟨p, hp, rfl, Or.inl rfl⟩

/-- A fiber that has not finished is asked. -/
theorem ask (w : World) (fiber : FiberId) (o : Observer) :
    w.Watches (w.modifyFiber fiber fun r => { r with observers := r.observers ++ [o] }) where
  finished f := isFinished_modifyFiber w fiber f fun _ => rfl
  failed f := hasFailed_modifyFiber w fiber f fun _ => rfl
  absent {f} hf := by
    simp only [modifyFiber, Store.fiber?_modifyFiber] at hf
    split at hf
    · next heq => exact heq ▸ Option.map_eq_none_iff.mp hf
    · exact hf
  willTell htell := htell.observed fiber o
  place hp := ⟨_, hp, rfl, Or.inl rfl⟩

variable {p p' : Suspension}

/-- A place that is still open has been open. -/
theorem registering (h : w.Watches w') (hp : w.suspension? s = some p)
    (hp' : w'.suspension? s = some p') (hstate : p'.state = .registering) :
    p.state = .registering := by
  obtain ⟨q, hq, -, heq | ⟨-, hover⟩⟩ := h.place hp
  · obtain rfl := Option.some.inj (hq.symm.trans hp')
    exact heq.symm.trans hstate
  · obtain rfl := Option.some.inj (hq.symm.trans hp')
    rw [hstate] at hover
    cases hover

/-- What has been told a place stays so. -/
theorem early (h : w.Watches w') (hp : w.suspension? s = some p)
    (hp' : w'.suspension? s = some p') {outcome : Outcome} (hstate : p.state = .early outcome) :
    p'.state = .early outcome := by
  obtain ⟨q, hq, -, heq | ⟨hopen, -⟩⟩ := h.place hp
  · obtain rfl := Option.some.inj (hq.symm.trans hp')
    exact heq.trans hstate
  · rw [hstate] at hopen
    cases hopen

end Watches

/-- Who does not want the exit changes nothing but that. -/
theorem watches_observe (w : World) (fiber : FiberId) {o : Observer}
    (ho : (∃ t b, o = .firstDone t b) ∨ ∃ t children i, o = .firstFailure t children i) :
    w.Watches (w.observe fiber o) := by
  unfold observe
  split
  · rcases ho with ⟨t, b, rfl⟩ | ⟨t, children, i, rfl⟩
    · exact .resume w t _
    · simp only [notify]
      split
      · exact .resume w t _
      · exact .refl w
  · exact .ask w fiber o

theorem watches_foldl (s : SuspensionId) (children : List FiberId)
    (positions : List (FiberId × Nat)) (w : World) :
    w.Watches (positions.foldl (fun w c => w.observe c.1 (.firstFailure s children c.2)) w) := by
  induction positions generalizing w with
  | nil => exact .refl w
  | cons c positions ih =>
    exact (w.watches_observe c.1 (Or.inr ⟨s, children, c.2, rfl⟩)).trans (ih _)

/-! ### Who is going to tell -/

/-- A fiber that has been asked is going to tell, unless there was no such fiber, or it has nothing
to tell. -/
def Posts (w w' : World) (fiber : FiberId) (o : Observer) : Prop :=
  w.store.fiber? fiber = none ∨ w'.WillTell fiber o ∨
    w'.store.isFinished fiber = true ∧ w'.store.hasFailed fiber = false ∧
      ∃ t children i, o = .firstFailure t children i

theorem Posts.mono {w₀ w₁ : World} {o : Observer} (h : w.Posts w' fiber o) (hbefore : w₀.Watches w)
    (hafter : w'.Watches w₁) : w₀.Posts w₁ fiber o := by
  rw [Posts, hafter.finished, hafter.failed]
  exact h.imp hbefore.absent (Or.imp_left hafter.willTell)

/-- A place that is still open after a fiber has been asked is going to be told by it. -/
theorem posts_of_observe {p p' : Suspension} (hp : w.suspension? s = some p) {o : Observer}
    (ho : o ∈ p.registration.observers s fiber)
    (hp' : (w.observe fiber o).suspension? s = some p') (hstate : p'.state = .registering) :
    w.Posts (w.observe fiber o) fiber o := by
  cases hfinished : w.store.isFinished fiber with
  | true =>
    have hnotify : w.observe fiber o = w.notify fiber o := by rw [observe, if_pos hfinished]
    rw [hnotify] at hp' ⊢
    rcases isOver_of_notify hp ho with hover | ⟨heq, hfailed, hwaived⟩
    · rw [isOver, hp', Option.any_some, hstate] at hover
      cases hover
    · rw [heq]
      exact Or.inr (Or.inr ⟨hfinished, hfailed, hwaived⟩)
  | false =>
    cases hr : w.store.fiber? fiber with
    | none => exact Or.inl hr
    | some r =>
      have hgoing : r.finished = false := by
        rwa [Store.isFinished, hr, Option.any_some] at hfinished
      refine Or.inr (Or.inl ⟨{ r with observers := r.observers ++ [o] }, ?_, hgoing,
        List.mem_append_right _ (List.mem_singleton_self _)⟩)
      simp [observe, hfinished, modifyFiber, Store.fiber?_modifyFiber, hr]

/-- A place that is still open after several children have been asked is going to be told by each. -/
theorem posts_of_foldl {children : List FiberId} {positions : List (FiberId × Nat)}
    {p p' : Suspension} (hp : w.suspension? s = some p)
    (hregistration : p.registration = .firstFailure children)
    (hpositions : ∀ c ∈ positions, children[c.2]? = some c.1)
    (hp' : (positions.foldl (fun w c => w.observe c.1 (.firstFailure s children c.2)) w).suspension?
      s = some p') (hstate : p'.state = .registering) {i : Nat} (hi : (fiber, i) ∈ positions) :
    w.Posts (positions.foldl (fun w c => w.observe c.1 (.firstFailure s children c.2)) w) fiber
      (.firstFailure s children i) := by
  induction positions generalizing w p with
  | nil => cases hi
  | cons c positions ih =>
    have hask := w.watches_observe c.1 (o := .firstFailure s children c.2)
      (Or.inr ⟨s, children, c.2, rfl⟩)
    have hrest := watches_foldl s children positions (w.observe c.1 (.firstFailure s children c.2))
    obtain ⟨p₁, hp₁, hregistration₁, -⟩ := hask.place hp
    rcases List.mem_cons.mp hi with rfl | hlater
    · have hmem : Observer.firstFailure s children i ∈ p.registration.observers s fiber := by
        rw [hregistration, Registration.mem_observers_firstFailure]
        exact ⟨i, hpositions _ List.mem_cons_self, rfl⟩
      exact (posts_of_observe hp hmem hp₁ (hrest.registering hp₁ hp' hstate)).mono (.refl w) hrest
    · exact (ih hp₁ (hregistration₁.trans hregistration)
        (fun c' hc' => hpositions c' (List.mem_cons_of_mem _ hc')) hp' hlater).mono hask (.refl _)

/-- **A place that is still open when all have been asked is going to be told by each.** -/
theorem posts_of_registering {p p' : Suspension} (hp : w.suspension? s = some p) {o : Observer}
    (ho : o ∈ p.registration.observers s fiber)
    (hp' : (w.register s p.registration).2.suspension? s = some p')
    (hstate : p'.state = .registering) :
    w.Posts (w.register s p.registration).2 fiber o := by
  cases hregistration : p.registration with
  | awaitExit f type =>
    rw [hregistration] at hp'
    have hmem := hregistration ▸ ho
    obtain ⟨rfl, rfl⟩ := Registration.mem_observers_awaitExit.mp hmem
    exact posts_of_observe hp ho hp' hstate
  | firstDone left right =>
    rw [hregistration] at hp'
    have hmem := hregistration ▸ ho
    obtain ⟨b, rfl, hb⟩ := Registration.mem_observers_firstDone.mp hmem
    have hleft := w.watches_observe left (o := .firstDone s true) (Or.inl ⟨s, true, rfl⟩)
    have hright := (w.observe left (.firstDone s true)).watches_observe right
      (o := .firstDone s false) (Or.inl ⟨s, false, rfl⟩)
    obtain ⟨p₁, hp₁, hregistration₁, -⟩ := hleft.place hp
    cases b with
    | true =>
      obtain rfl : left = fiber := hb
      exact (posts_of_observe hp ho hp₁ (hright.registering hp₁ hp' hstate)).mono (.refl w) hright
    | false =>
      obtain rfl : right = fiber := hb
      exact (posts_of_observe hp₁ (hregistration₁ ▸ ho) hp' hstate).mono hleft (.refl _)
  | firstFailure children =>
    rw [hregistration] at hp'
    have hmem := hregistration ▸ ho
    obtain ⟨i, hi, rfl⟩ := Registration.mem_observers_firstFailure.mp hmem
    exact posts_of_foldl hp hregistration (fun c hc => List.mem_zipIdx_iff_getElem?.mp hc) hp' hstate
      (List.mem_zipIdx_iff_getElem?.mpr hi)
  | callback _ | sleep _ | offer _ _ | take _ | awaitClose _ =>
    rw [hregistration] at ho
    cases ho

/-! ### Who decides a wait that is over at once -/

/-- A fiber has finished in a way that decides a wait: any way if the first one to finish is waited
for, and with a failure if the first one to fail is. -/
def Decides (w : World) (fiber : FiberId) : Registration → Prop
  | .firstDone _ _ => w.store.isFinished fiber = true
  | .firstFailure _ => w.store.isFinished fiber = true ∧ w.store.hasFailed fiber = true
  | .callback _ | .sleep _ | .awaitExit _ _ | .offer _ _ | .take _ | .awaitClose _ => False

/-- The one at a position decides, and none of those before it. -/
def DecidesFirst (w : World) (registration : Registration) (candidates : List FiberId) (k : Nat) :
    Prop :=
  (∃ c, candidates[k]? = some c ∧ w.Decides c registration) ∧
    ∀ j < k, ∀ c, candidates[j]? = some c → ¬ w.Decides c registration

/-- What has been told an open place is known there. -/
theorem state_of_resume {p p' : Suspension} (hp : w.suspension? s = some p)
    (hstate : p.state = .registering) {outcome : Outcome}
    (hp' : (w.resume s outcome).2.suspension? s = some p') : p'.state = .early outcome := by
  rw [suspension?_resume, if_pos rfl, hp] at hp'
  obtain rfl := Option.some.inj hp'
  change p.state.completed outcome = .early outcome
  rw [hstate]
  rfl

/-- One of two fibers is asked: if it has finished it tells that at once. -/
theorem observe_firstDone (w : World) (fiber : FiberId) (s : SuspensionId) (b : Bool) :
    (w.store.isFinished fiber = true ∧
      w.observe fiber (.firstDone s b) = (w.resume s (.done (.bool b))).2) ∨
    (¬ w.store.isFinished fiber = true ∧
      (w.observe fiber (.firstDone s b)).suspensions = w.suspensions) := by
  by_cases hfinished : w.store.isFinished fiber = true
  · exact Or.inl ⟨hfinished, if_pos hfinished⟩
  · refine Or.inr ⟨hfinished, ?_⟩
    rw [observe, if_neg hfinished]
    rfl

/-- One of several children is asked: if it has failed it tells that at once, and otherwise nothing,
or that none has failed. -/
theorem observe_firstFailure (w : World) (c : FiberId) (s : SuspensionId) (children : List FiberId)
    (n : Nat) :
    (w.Decides c (.firstFailure children) ∧ w.observe c (.firstFailure s children n) =
      (w.resume s (.done (.some (.int n)))).2) ∨
    (¬ w.Decides c (.firstFailure children) ∧
      (w.observe c (.firstFailure s children n) = (w.resume s (.done .none)).2 ∨
        (w.observe c (.firstFailure s children n)).suspensions = w.suspensions)) := by
  by_cases hfinished : w.store.isFinished c = true
  · have hnotify : w.observe c (.firstFailure s children n) =
        w.notify c (.firstFailure s children n) := if_pos hfinished
    rw [hnotify]
    by_cases hfailed : w.store.hasFailed c = true
    · have hverdict : w.failureVerdict children c n = some (.some (.int n)) := if_pos hfailed
      exact Or.inl ⟨⟨hfinished, hfailed⟩, by simp only [notify, hverdict]⟩
    · refine Or.inr ⟨fun hdecides => hfailed hdecides.2, ?_⟩
      cases hverdict : w.failureVerdict children c n with
      | none => exact Or.inr (by simp only [notify, hverdict])
      | some v =>
        rcases of_failureVerdict hverdict with ⟨-, hfailed'⟩ | ⟨rfl, -⟩
        · exact absurd hfailed' hfailed
        · exact Or.inl (by simp only [notify, hverdict])
  · refine Or.inr ⟨fun hdecides => hfinished hdecides.1, Or.inr ?_⟩
    rw [observe, if_neg hfinished]
    rfl

/-- What a place has been told at once stays so, whoever is asked later. -/
theorem early_of_resume {w₁ w₂ : World} {p p' : Suspension} {outcome : Outcome}
    (hp : w.suspension? s = some p) (hstate : p.state = .registering)
    (htold : w₁ = (w.resume s outcome).2) (hlater : w₁.Watches w₂)
    (hp' : w₂.suspension? s = some p') : p'.state = .early outcome := by
  subst htold
  obtain ⟨p₁, hp₁, -⟩ := (Watches.resume w s outcome).place hp
  exact hlater.early hp₁ hp' (state_of_resume hp hstate hp₁)

theorem first_of_firstDone {left right : FiberId} {p p' : Suspension}
    (hp : w.suspension? s = some p) (hstate : p.state = .registering)
    (hp' : (w.register s (.firstDone left right)).2.suspension? s = some p') {k : Nat}
    (hk : k < [left, right].length)
    (hearly : p'.state = .early (.done ((Registration.firstDone left right).verdict k))) :
    w.DecidesFirst (.firstDone left right) [left, right] k := by
  have hleft := w.watches_observe left (o := .firstDone s true) (Or.inl ⟨s, true, rfl⟩)
  have hright := (w.observe left (.firstDone s true)).watches_observe right
    (o := .firstDone s false) (Or.inl ⟨s, false, rfl⟩)
  rcases w.observe_firstDone left s true with ⟨hdone, htold⟩ | ⟨hgoing, hsame⟩
  · have hfirst := early_of_resume hp hstate htold hright hp'
    obtain rfl : k = 0 := by simpa [Registration.verdict] using hfirst.symm.trans hearly
    exact ⟨⟨left, rfl, hdone⟩, fun j hj => absurd hj (Nat.not_lt_zero j)⟩
  have hp₁ : (w.observe left (.firstDone s true)).suspension? s = some p := by
    rwa [suspension?, hsame]
  rcases observe_firstDone (w.observe left (.firstDone s true)) right s false with
    ⟨hdone, htold⟩ | ⟨-, hsame'⟩
  · have hsecond := early_of_resume hp₁ hstate htold (.refl _) hp'
    have hne : k ≠ 0 := by simpa [Registration.verdict] using hsecond.symm.trans hearly
    obtain rfl : k = 1 := by simp at hk; omega
    refine ⟨⟨right, rfl, ?_⟩, fun j hj c hc => ?_⟩
    · rwa [hleft.finished] at hdone
    · obtain rfl : j = 0 := by omega
      exact Option.some.inj hc ▸ hgoing
  · -- nobody has told it anything
    have hp₂ : (w.register s (.firstDone left right)).2.suspension? s = some p := by
      refine Eq.trans ?_ hp₁
      exact congrArg (Numbered.get? · s.index) hsame'
    obtain rfl := Option.some.inj (hp₂.symm.trans hp')
    rw [hstate] at hearly
    cases hearly

/-- Children are asked in order, from some position on. -/
theorem first_of_foldl {children : List FiberId} {p p' : Suspension}
    (hp : w.suspension? s = some p) (hstate : p.state = .registering) (rest : List FiberId) (n : Nat)
    (hp' : ((rest.zipIdx n).foldl
      (fun w c => w.observe c.1 (.firstFailure s children c.2)) w).suspension? s = some p') {k : Nat}
    (hearly : p'.state = .early (.done (.some (.int k)))) :
    ∃ i, k = n + i ∧ w.DecidesFirst (.firstFailure children) rest i := by
  induction rest generalizing w n p with
  | nil =>
    obtain rfl := Option.some.inj (hp.symm.trans hp')
    rw [hstate] at hearly
    cases hearly
  | cons c rest ih =>
    rw [List.zipIdx_cons, List.foldl_cons] at hp'
    have hask := w.watches_observe c (o := .firstFailure s children n)
      (Or.inr ⟨s, children, n, rfl⟩)
    have hrest := watches_foldl s children (rest.zipIdx (n + 1))
      (w.observe c (.firstFailure s children n))
    rcases w.observe_firstFailure c s children n with ⟨hdecides, htold⟩ | ⟨hnot, htold | hsame⟩
    · have heq := (early_of_resume hp hstate htold hrest hp').symm.trans hearly
      have hn := Value.some.inj (Exit.done.inj (SuspensionState.early.inj heq))
      obtain rfl := Int.ofNat.inj (Value.int.inj hn)
      exact ⟨0, rfl, ⟨c, rfl, hdecides⟩, fun j hj => absurd hj (Nat.not_lt_zero j)⟩
    · -- then all have succeeded
      have heq := (early_of_resume hp hstate htold hrest hp').symm.trans hearly
      cases Exit.done.inj (SuspensionState.early.inj heq)
    · have hp₁ : (w.observe c (.firstFailure s children n)).suspension? s = some p := by
        rwa [suspension?, hsame]
      obtain ⟨i, rfl, ⟨c', hc', hdecides⟩, hbefore⟩ := ih hp₁ hstate (n + 1) hp'
      simp only [Decides, hask.finished, hask.failed] at hdecides hbefore
      refine ⟨i + 1, by omega, ⟨c', hc', hdecides⟩, fun j hj c'' hc'' => ?_⟩
      cases j with
      | zero => exact Option.some.inj hc'' ▸ hnot
      | succ j => exact hbefore j (Nat.lt_of_succ_lt_succ hj) c'' hc''

/-- **A wait that is over at once has been decided by the first one in order.** -/
theorem first_of_early {registration : Registration} {p p' : Suspension}
    (hp : w.suspension? s = some p) (hstate : p.state = .registering)
    (hp' : (w.register s registration).2.suspension? s = some p') {k : Nat}
    (hk : k < registration.candidates.length)
    (hearly : p'.state = .early (.done (registration.verdict k))) :
    w.DecidesFirst registration registration.candidates k := by
  cases registration with
  | firstDone left right => exact first_of_firstDone hp hstate hp' hk hearly
  | firstFailure children =>
    obtain ⟨i, hi, hfirst⟩ := first_of_foldl hp hstate children 0 hp' hearly
    rw [Nat.zero_add] at hi
    exact hi ▸ hfirst
  | callback _ | sleep _ | awaitExit _ _ | offer _ _ | take _ | awaitClose _ =>
    exact absurd hk (Nat.not_lt_zero k)

/-! ### Whoever begins to wait -/

/-- Only the registration of a wait that may end with anything can panic. -/
theorem isFree_of_register_error {registration : Registration} {d : Defect}
    (h : (w.register s registration).1 = .error d) : registration.isFree = true := by
  cases registration with
  | sleep _ | awaitExit _ _ | firstDone _ _ | firstFailure _ => cases h
  | callback _ | offer _ _ | take _ | awaitClose _ => rfl

theorem isFree_of_candidates {registration : Registration} {c : FiberId}
    (hc : c ∈ registration.candidates) : registration.isFree = false := by
  cases registration with
  | firstDone _ _ | firstFailure _ => rfl
  | callback _ | sleep _ | awaitExit _ _ | offer _ _ | take _ | awaitClose _ => cases hc

/-- Everyone who may decide a wait is asked. -/
theorem exists_observer {registration : Registration} {c : FiberId}
    (hc : c ∈ registration.candidates) (s : SuspensionId) : ∃ o ∈ registration.observers s c,
      (∃ t b, o = .firstDone t b) ∨ ∃ children, registration = .firstFailure children := by
  cases registration with
  | firstDone left right =>
    rcases List.mem_pair.mp hc with rfl | rfl
    · exact ⟨_, Registration.mem_observers_firstDone.mpr ⟨true, rfl, rfl⟩, Or.inl ⟨s, true, rfl⟩⟩
    · exact ⟨_, Registration.mem_observers_firstDone.mpr ⟨false, rfl, rfl⟩, Or.inl ⟨s, false, rfl⟩⟩
  | firstFailure children =>
    obtain ⟨i, hi⟩ := List.getElem?_of_mem hc
    exact ⟨_, Registration.mem_observers_firstFailure.mpr ⟨i, hi, rfl⟩, Or.inr ⟨children, rfl⟩⟩
  | callback _ | sleep _ | awaitExit _ _ | offer _ _ | take _ | awaitClose _ => cases hc

theorem watches_register {registration : Registration} {c : FiberId}
    (hc : c ∈ registration.candidates) (w : World) (s : SuspensionId) :
    w.Watches (w.register s registration).2 := by
  cases registration with
  | firstDone left right =>
    exact (w.watches_observe left (Or.inl ⟨s, true, rfl⟩)).trans
      (watches_observe _ right (Or.inl ⟨s, false, rfl⟩))
  | firstFailure children => exact watches_foldl s children children.zipIdx w
  | callback _ | sleep _ | awaitExit _ _ | offer _ _ | take _ | awaitClose _ => cases hc

/-- A new place changes nothing of who has finished, or failed. -/
theorem decides_newSuspension (w : World) (fiber : FiberId) (allowed : Bool)
    (registration registration' : Registration) (c : FiberId) :
    (w.newSuspension fiber allowed registration).2.Decides c registration' ↔
      w.Decides c registration' := by
  let opened : World :=
    { w with suspensions := w.suspensions.push ⟨fiber, allowed, registration, .registering⟩ }
  have hfinished : (w.newSuspension fiber allowed registration).2.store.isFinished c =
      w.store.isFinished c := isFinished_modifyFiber opened fiber c fun _ => rfl
  have hfailed : (w.newSuspension fiber allowed registration).2.store.hasFailed c =
      w.store.hasFailed c := hasFailed_modifyFiber opened fiber c fun _ => rfl
  cases registration' with
  | firstDone _ _ | firstFailure _ => simp only [Decides, hfinished, hfailed]
  | callback _ | sleep _ | awaitExit _ _ | offer _ _ | take _ | awaitClose _ => exact Iff.rfl

section Parks

variable {run : RunState} {registration : Registration} {c : FiberId}

/-- How a wait goes on that others may decide. -/
theorem park_of_candidates (hc : c ∈ registration.candidates) :
    ∃ s w₁ p', w.newSuspension fiber run.interruptible registration = (s, w₁) ∧
      w₁.suspension? s = some ⟨fiber, run.interruptible, registration, .registering⟩ ∧
      (w₁.register s registration).2.suspension? s = some p' ∧
      ((p'.state = .registering ∧ (w.park fiber run registration).1 = none) ∨
        ∃ o, p'.state = .early o ∧ (w.park fiber run registration).1 = some (.ofOutcome o)) := by
  have hothers := isFree_of_candidates hc
  obtain ⟨s, w₁, hnew⟩ : ∃ s w₁, w.newSuspension fiber run.interruptible registration = (s, w₁) :=
    ⟨_, _, rfl⟩
  have hp : w₁.suspension? s = some ⟨fiber, run.interruptible, registration, .registering⟩ := by
    have hself := suspension?_newSuspension w fiber run.interruptible registration s
    rw [hnew, if_pos rfl] at hself
    exact hself
  obtain ⟨p', hp', hstate⟩ := nascent_newSuspension hnew hothers
  refine ⟨s, w₁, p', hnew, hp, hp', ?_⟩
  simp only [park, hnew]
  cases hregistered : (w₁.register s registration).1 with
  | error d =>
    rw [isFree_of_register_error hregistered] at hothers
    cases hothers
  | ok onInterrupt =>
    rw [hp', Option.map_some]
    rcases hstate with heq | ⟨o, heq⟩ <;> rw [heq]
    · exact Or.inl ⟨rfl, rfl⟩
    · exact Or.inr ⟨o, rfl, rfl⟩

/-- **Who goes on at once has been told of the first one in order.** -/
theorem first_of_park {k : Nat} (hk : k < registration.candidates.length)
    (hgo : (w.park fiber run registration).1 = some (.value (registration.verdict k))) :
    w.DecidesFirst registration registration.candidates k := by
  obtain ⟨s, w₁, p', hnew, hp, hp', ⟨-, hnone⟩ | ⟨o, hstate, hpark⟩⟩ :=
    @park_of_candidates w fiber run registration _ (List.getElem_mem hk)
  · rw [hnone] at hgo
    cases hgo
  · rw [hpark] at hgo
    have hearly : p'.state = .early (.done (registration.verdict k)) := by
      cases o with
      | done v => rw [hstate, Step.value.inj (Option.some.inj hgo)]
      | halt failure => cases hgo
    obtain ⟨⟨c, hc, hdecides⟩, hbefore⟩ := first_of_early hp rfl hp' hk hearly
    have hsame := w.decides_newSuspension fiber run.interruptible registration registration
    rw [hnew] at hsame
    exact ⟨⟨c, hc, (hsame c).mp hdecides⟩,
      fun j hj c' hc' hdecides' => hbefore j hj c' hc' ((hsame c').mpr hdecides')⟩

/-- **Nobody is parked for a wait that has been decided.** -/
theorem not_decides_of_park (hc : c ∈ registration.candidates)
    (hwait : (w.park fiber run registration).1 = none) : ¬ w.Decides c registration := by
  intro hdecides
  obtain ⟨s, w₁, p', hnew, hp, hp', ⟨hstate, -⟩ | ⟨o, -, hpark⟩⟩ :=
    @park_of_candidates w fiber run registration c hc
  · have hsame := w.decides_newSuspension fiber run.interruptible registration registration c
    rw [hnew] at hsame
    replace hdecides := hsame.mpr hdecides
    have hwatches := watches_register hc w₁ s
    have hfinished : w₁.store.isFinished c = true := by
      cases registration with
      | firstDone _ _ => exact hdecides
      | firstFailure _ => exact hdecides.1
      | callback _ | sleep _ | awaitExit _ _ | offer _ _ | take _ | awaitClose _ => cases hc
    obtain ⟨o, ho, hkind⟩ := exists_observer hc s
    rcases posts_of_registering hp ho hp' hstate with hnone | ⟨r, hr, hgoing, -⟩ | ⟨-, hfailed, hwho⟩
    · rw [Store.isFinished, hnone] at hfinished
      cases hfinished
    · rw [← hwatches.finished, Store.isFinished, hr, Option.any_some, hgoing] at hfinished
      cases hfinished
    · rcases hkind with ⟨t, b, rfl⟩ | ⟨children, rfl⟩
      · obtain ⟨_, _, _, heq⟩ := hwho
        cases heq
      · rw [hwatches.failed, hdecides.2] at hfailed
        cases hfailed
  · rw [hpark] at hwait
    cases hwait

end Parks

end World

end Fibers
