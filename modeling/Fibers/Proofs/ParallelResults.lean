import Fibers.Proofs.NormalForms
import Fibers.Proofs.Secrecy

/-!
# With what effects end that run others at once

The children of a nursery, a pair or a race end in any order, before or after they are asked about,
and what an exit says is told once.  Whatever the order is, the end is made of their exits alone: a
nursery ends with the values of all in the order in which the effects were given, or as one child
has failed with what others have failed with alongside; a pair ends with the combination of both
values, or with the failures of both, the left one first; a race ends with the first success.

This is so of children that confide in the fiber that has started them, and in a run in which nobody
makes up a handle all of them do.

The exits are those that are seen at the type of the failures.  They are normal, so a failure that
is taken over comes out as it went in.

## Main definitions

* `Exit.ownFailure?` — what a child has failed with that has not merely been stopped.
* `Workshop.EndsWith` — the exit of a fiber as it is seen at a type.

## Main results

* `Halt.foldl_keepSibling` — what a nursery puts beside a failure.
* `Workshop.Run.requests_of_acts` — whoever has been started, and is asked to stop, has been asked.
* `Workshop.Run.nursery_result` — **the result of a nursery.**
* `Workshop.Run.pair_result` — **the result of a pair.**
* `Workshop.Run.race_result` — **the result of a race for the first success.**
-/

namespace Fibers

open Effect

/-! ### Merging exits -/

/-- What a child has failed with of its own: its failure, unless the primary cause of that tells of
cancellations and nothing else. -/
def Exit.ownFailure? : Exit Value Value → Option (Halt Value)
  | .done _ => none
  | .halt h => if h.cause.isInterruptedOnly then none else some h

namespace Halt

/-- **What is put beside a failure** is what others have failed with of their own, in order. -/
theorem foldl_keepSibling (xs : List (Exit Value Value)) (h : Halt Value) :
    xs.foldl keepSibling h = (xs.filterMap Exit.ownFailure?).foldl append h := by
  induction xs generalizing h with
  | nil => rfl
  | cons x xs ih =>
    rw [List.foldl_cons, ih]
    cases x with
    | done v => rfl
    | halt g =>
      cases honly : g.cause.isInterruptedOnly with
      | true => simp [keepSibling, Exit.ownFailure?, honly]
      | false => simp [keepSibling, Exit.ownFailure?, honly]

theorem keepSibling_halt {h g : Halt Value} (honly : g.cause.isInterruptedOnly = false) :
    h.keepSibling (.halt g) = h.append g := by
  simp [keepSibling, honly]

/-- The failures of both sides of a race have the leaves of both. -/
theorem leaves_bothFailed (first second : Halt Value) :
    (bothFailed first second).leaves.Perm (first.leaves ++ second.leaves) := by
  have hleaves : (bothFailed first second).leaves =
      first.cause.leaves ++ (second.cause.leaves ++ (first.remaining.flatMap Cause.leaves ++
        second.remaining.flatMap Cause.leaves)) := by
    simp [bothFailed, leaves, causes]
  rw [hleaves, leaves, leaves, causes, causes, List.flatMap_cons, List.flatMap_cons,
    List.append_assoc]
  refine List.Perm.append_left _ ?_
  rw [← List.append_assoc, ← List.append_assoc]
  exact List.perm_append_comm.append_right _

theorem IsNormal.foldl_ownFailure {xs : List (Exit Value Value)} {h : Halt Value}
    (hh : h.IsNormal) (hxs : ∀ x ∈ xs, x.IsNormal) :
    ((xs.filterMap Exit.ownFailure?).foldl Halt.append h).IsNormal := by
  refine hh.foldl_append fun g hg => ?_
  obtain ⟨x, hx, hsome⟩ := List.mem_filterMap.mp hg
  cases x with
  | done v => cases hsome
  | halt g' =>
    simp only [Exit.ownFailure?] at hsome
    split at hsome
    · cases hsome
    · exact Option.some.inj hsome ▸ hxs _ hx g' rfl

theorem IsNormal.bothFailed {first second : Halt Value} (hfirst : first.IsNormal)
    (hsecond : second.IsNormal) : (bothFailed first second).IsNormal := by
  intro c hc
  rcases List.mem_cons.mp hc with rfl | hc
  · exact (hfirst _ List.mem_cons_self).alongside (hsecond _ List.mem_cons_self)
  · exact (List.mem_append.mp hc).elim (fun hc => hfirst c (List.mem_cons_of_mem _ hc))
      fun hc => hsecond c (List.mem_cons_of_mem _ hc)

end Halt

namespace Workshop

variable {budget minted : Nat} {s : Workshop} {record : List (FiberId × Event)} {fiber c : FiberId}
  {base : RunState} {ε : ErrorType} {during : List Event} {o : Outcome}

/-! ### Exits and requests in a run -/

/-- A fiber has ended with an exit, as it is seen at a type. -/
def EndsWith (record : List (FiberId × Event)) (ε : ErrorType) (c : FiberId)
    (x : Exit Value Value) : Prop :=
  ∃ o, Ended record c o ∧ x = o.untag ε

theorem EndsWith.isNormal {x : Exit Value Value} (h : EndsWith record ε c x) : x.IsNormal := by
  obtain ⟨o, -, rfl⟩ := h
  exact o.isNormal_untag ε

/-- A fiber ends with one exit. -/
theorem EndsWith.eq {x y : Exit Value Value} (hx : EndsWith record ε c x)
    (hy : EndsWith record ε c y) (h : Run budget (init minted) record s) : x = y := by
  obtain ⟨o, ho, rfl⟩ := hx
  obtain ⟨o', ho', rfl⟩ := hy
  rw [h.ended_eq ho ho']

/-- Who alone waits for a fiber is told its exit. -/
theorem Confides.endsWith {first : Registration} (hconfides : Confides s record fiber c first ε)
    {x : Exit Value Value} (hx : (confided s record fiber).Exits ε c x) : EndsWith record ε c x :=
  hx.2.exit rfl rfl hconfides

/-- **What holds when an evaluation has settled** in a fiber that is not asked to stop, by what
children say for which it alone waits. -/
theorem Evaluated.foreseen_of_unasked {i : Instruction}
    (hdone : Evaluated s record fiber base i during o) (h : Run budget (init minted) record s)
    (hfree : s.world.store.isInterrupted fiber = false) {Q : Outcome → List Act → Prop}
    (hsettles : Settles fiber (confided s record fiber) base (.active base (.eval i)) Q) :
    Q o (acts during) :=
  hdone.foreseen h (h.foresees_confided hfree) (fun _ _ _ _ _ _ _ _ => id) id hsettles

/-- Whoever is asked to stop after it has been started has been asked. -/
theorem Run.requests_of_signal {before after : List (FiberId × Event)} {w : World} {run : RunState}
    {daemon : Bool} {parent : FiberId}
    (h : Run budget (init minted)
      (before ++ (fiber, .iterated w run (.eval (.signal c))) :: after) s)
    (hforked : Forked before daemon parent c) : fiber ∈ s.world.requests c := by
  obtain ⟨s₁, s₂, pre, stops, rfl, hfirst, hmove, hlater⟩ := h.at_iteration
  have hvalid := hfirst.valid (valid_init minted)
  obtain ⟨rfl, -, hworld, hstops⟩ := hmove.world_of_iterated hvalid
  have hborn : (s₁.world.store.fiber? c).isSome := by
    rcases forked_append.mp hforked with hearly | ⟨e, hmem, hstarts⟩
    · exact hfirst.supervised.born hearly
    · rw [(hstops hmem).2] at hstarts
      cases hstarts
  have hasked : fiber ∈ s₂.world.requests c := by
    rw [hworld]
    exact World.mem_requests_interrupt hborn fiber
  exact (hlater.requests (hmove.valid hvalid) c).subset hasked

theorem event_of_signal {e : Event} (h : e.act? = some (.signals c)) :
    ∃ w run, e = .iterated w run (.eval (.signal c)) := by
  unfold Event.act? at h
  split at h
  · cases h
  · obtain rfl := Dealing.signals.inj (Act.deals.inj (Option.some.inj h))
    exact ⟨_, _, rfl⟩
  · cases h
  · cases h

/-- **Whoever has been started, and is asked to stop later, has been asked.** -/
theorem Run.requests_of_acts (h : Run budget (init minted) record s) {es : List Event}
    {a : Standing} (hhistory : History s record fiber es a) {as bs : List Act} {i : Instruction}
    (hacts : acts es = as ++ bs) (hforks : .forks c i ∈ as) (hsignals : .signals c ∈ bs) :
    fiber ∈ s.world.requests c := by
  obtain ⟨bs₁, bs₂, rfl⟩ := List.append_of_mem hsignals
  have hdoings : (eventsOf fiber record).filterMap Event.act? =
      as ++ (bs₁ ++ .signals c :: bs₂) := by
    rw [← hacts, ← acts_filter, hhistory.doings]
    rfl
  -- the request stands in the record after the start
  obtain ⟨past, rest, hevents, hpast, hrest⟩ := List.filterMap_eq_append_iff.mp hdoings
  obtain ⟨middle, rest', rfl, -, hsignal⟩ := List.filterMap_eq_append_iff.mp hrest
  obtain ⟨idle, e, later, rfl, -, he, -⟩ := List.filterMap_eq_cons_iff.mp hsignal
  obtain ⟨w, run, rfl⟩ := event_of_signal he
  have hget : (eventsOf fiber record)[(past ++ middle ++ idle).length]? =
      some (.iterated w run (.eval (.signal c))) := by
    simp [hevents]
  obtain ⟨before, after, rfl, hbefore⟩ := exists_record_of_doing hget
  rw [hevents, ← List.append_assoc, ← List.append_assoc, List.take_left] at hbefore
  obtain ⟨e', he', hact⟩ := List.mem_filterMap.mp (hpast ▸ hforks)
  obtain ⟨daemon, hstarts⟩ := starts_of_act hact
  have hforked : Forked before daemon fiber c := by
    refine ⟨e', ?_, hstarts⟩
    rw [← mem_eventsOf, hbefore, List.append_assoc]
    exact List.mem_append_left _ he'
  exact h.requests_of_signal hforked

/-! ### Two children that fail -/

/-- Whether an outcome is the failure with one error and nothing else. -/
def failsJust (text : String) : Outcome → Bool
  | .halt ⟨.fail ⟨type, .text text'⟩, []⟩ => type = ⟨"E"⟩ && text' = text
  | _ => false

theorem endsWith_of_failsJust {text : String}
    (h : record.any (endsSo c (failsJust text)) = true) :
    EndsWith record ⟨"E"⟩ c (.halt (.of (.fail (.text text)))) := by
  obtain ⟨o, hended, hfails⟩ := ended_of_endsSo c (failsJust text) h
  refine ⟨o, hended, ?_⟩
  unfold failsJust at hfails
  split at hfails
  · next type text' =>
    obtain ⟨htype, htext⟩ := (Bool.and_eq_true ..).mp hfails
    rw [of_decide_eq_true htype, of_decide_eq_true htext]
    simp [Exit.untag, Halt.untag, Halt.flatMap, Cause.flatMap, Halt.of]
  · cases hfails

theorem append_of_fail (a b : Value) :
    (Halt.of (.fail a)).append (.of (.fail b)) = ⟨.fail a, [.fail b]⟩ := by
  simp [Halt.append, Halt.withRemaining, Halt.of, Cause.isEmpty, Cause.leaves]

theorem isInterruptedOnly_of_fail (a : Value) :
    (Halt.of (.fail a)).cause.isInterruptedOnly = false := by
  simp [Halt.of, Cause.isInterruptedOnly, Cause.leaves, Leaf.isInterrupt, Leaf.interruptor?]

/-- A fiber runs an effect in which two children fail, and nobody makes up a handle. -/
structure FailsTwice (i : Instruction) (during : List Event) (o : Outcome) : Prop where
  evaluated : Evaluated (afterBegun i 60) (recordBegun i 60) ⟨1⟩ (.start .unit true) i during o
  free : (afterBegun i 60).world.store.isInterrupted ⟨1⟩ = false
  prudent : PrudentRun 16 0 (recordBegun i 60) (afterBegun i 60)
  left : EndsWith (recordBegun i 60) ⟨"E"⟩ ⟨2⟩ (.halt (.of (.fail (.text "a"))))
  right : EndsWith (recordBegun i 60) ⟨"E"⟩ ⟨3⟩ (.halt (.of (.fail (.text "b"))))

/-- A run in which this is so is recognized by its record. -/
theorem exists_failsTwice {i : Instruction} (hi : ∀ c, i.Guards c .none)
    (hfirst : ∃ w, (eventsOf ⟨1⟩ (recordBegun i 60)).head? =
      some (.iterated w (.start .unit true) (.eval i)))
    (hfinished : (afterBegun i 60).world.store.isFinished ⟨1⟩ = true)
    (hfree : (afterBegun i 60).world.store.isInterrupted ⟨1⟩ = false)
    (hends : (recordBegun i 60).any (endsSo ⟨1⟩ isFailure) = true)
    (hleft : (recordBegun i 60).any (endsSo ⟨2⟩ (failsJust "a")) = true)
    (hright : (recordBegun i 60).any (endsSo ⟨3⟩ (failsJust "b")) = true) :
    ∃ during failure, FailsTwice i during (.halt failure) ∧
      acts during = acts (eventsOf ⟨1⟩ (recordBegun i 60)) := by
  obtain ⟨during, o, hdone, hfails, hacts⟩ :=
    exists_evaluated isFailure hfirst hfinished hfree hends
  cases o with
  | done v => cases hfails
  | halt failure =>
    exact ⟨during, failure, ⟨hdone, hfree, prudent_begun hi 60, endsWith_of_failsJust hleft,
      endsWith_of_failsJust hright⟩, hacts⟩

/-! ### The nursery -/

/-- Exits of all others and of one that was left out are exits of all. -/
theorem exists_inserted {α β : Type} {R : α → β → Prop} {as : List α} {i : Nat} {a : α} {b : β}
    {bs : List β} (ha : as[i]? = some a) (hab : R a b)
    (hbs : List.Forall₂ R (as.eraseIdx i) bs) :
    ∃ all, List.Forall₂ R as all ∧ all[i]? = some b ∧ all.eraseIdx i = bs := by
  induction as generalizing i bs with
  | nil => cases ha
  | cons a' as ih =>
    cases i with
    | zero =>
      obtain rfl := Option.some.inj ha
      exact ⟨b :: bs, .cons hab hbs, rfl, rfl⟩
    | succ i =>
      cases hbs with
      | @cons _ b' _ bs hb' hbs =>
        obtain ⟨all, hall, hb, herase⟩ := ih ha hbs
        exact ⟨b' :: all, .cons hb' hall, hb, congrArg (b' :: ·) herase⟩

/-- How a nursery ends whose children have ended with some exits. -/
inductive NurseryResult (ε : ErrorType) (children : List FiberId)
    (exits : List (Exit Value Value)) : Outcome → List Act → Prop where
  /-- With the values of all, in the order in which the effects were given. -/
  | collected {vs : List Value} {later : List Act} : exits = vs.map .done →
      NurseryResult ε children exits (.done (.list vs)) later
  /-- As one child has failed, with what others have failed with of their own alongside; all others
  are asked to stop. -/
  | failed {i : Nat} {h : Halt Value} {failure : Halt Failure} {later : List Act} :
      exits[i]? = some (.halt h) →
      failure.untag ε = ((exits.eraseIdx i).filterMap Exit.ownFailure?).foldl Halt.append h →
      (∀ c ∈ children.eraseIdx i, .signals c ∈ later) →
        NurseryResult ε children exits (.halt failure) later

/-- A nursery ends with a value exactly if all children do. -/
theorem NurseryResult.done_iff {children : List FiberId} {exits : List (Exit Value Value)}
    {later : List Act} (h : NurseryResult ε children exits o later) :
    (∃ v, o = .done v) ↔ ∀ x ∈ exits, x.isDone = true := by
  cases h with
  | @collected vs _ hexits =>
    refine iff_of_true ⟨_, rfl⟩ fun x hx => ?_
    rw [hexits] at hx
    obtain ⟨v, -, rfl⟩ := List.mem_map.mp hx
    rfl
  | failed hget _ _ =>
    refine iff_of_false ?_ fun hall => ?_
    · rintro ⟨v, heq⟩
      cases heq
    · cases hall _ (List.mem_of_getElem? hget)

section Nursery

variable {children : List FiberId} {later : List Act}

/-- What is told of the exits of children for which nobody else waits is so. -/
theorem endsWith_of_exits {first : Registration} {cs : List FiberId}
    {exits : List (Exit Value Value)} (hconfides : ∀ c ∈ cs, Confides s record fiber c first ε)
    (hexits : List.Forall₂ ((confided s record fiber).Exits ε) cs exits) :
    List.Forall₂ (EndsWith record ε) cs exits := by
  induction hexits with
  | nil => exact .nil
  | cons hx _ ih =>
    obtain ⟨hc, hcs⟩ := List.forall_mem_cons.mp hconfides
    exact .cons (hc.endsWith hx) (ih hcs)

/-- **A nursery ends as the exits of its children say**, if nobody else waits for them. -/
theorem Run.result_of_nurseryEnds (h : Run budget (init minted) record s)
    (hconfides : ∀ c ∈ children, Confides s record fiber c (.firstFailure children) ε)
    (hends : Settles.NurseryEnds (confided s record fiber) ε children o later) :
    ∃ exits, List.Forall₂ (EndsWith record ε) children exits ∧
      NurseryResult ε children exits o later := by
  cases hends with
  | succeeded htold _ hall =>
    rcases hall with ⟨vs, rfl, hvs⟩ | ⟨c, hc, g, hfails, rfl⟩
    · exact ⟨vs.map .done, endsWith_of_exits hconfides (List.forall₂_map_right_iff.mpr hvs),
        .collected rfl⟩
    · -- none has failed
      obtain ⟨v, hv⟩ := htold.2.verdict rfl rfl hc (hconfides c hc)
      cases ((hconfides c hc).endsWith hfails).eq ⟨_, hv, rfl⟩ h
  | @failed i culprit x xs htold hculprit hx hxs =>
    have hmem : culprit ∈ children := List.mem_of_getElem? hculprit
    have hx' := (hconfides culprit hmem).endsWith hx
    have hxs' := endsWith_of_exits
      (fun c hc => hconfides c (List.mem_of_mem_eraseIdx hc)) hxs
    obtain ⟨exits, hexits, hget, rfl⟩ := exists_inserted hculprit hx' hxs'
    -- the culprit has failed
    obtain ⟨g, hg⟩ := htold.2.culprit rfl rfl hculprit (hconfides culprit hmem)
    obtain rfl := hx'.eq ⟨_, hg, rfl⟩ h
    refine ⟨exits, hexits, .failed hget ?_ fun c hc => ?_⟩
    · rw [Halt.foldl_keepSibling]
      refine Halt.IsNormal.untag_tag (Halt.IsNormal.foldl_ownFailure ?_ fun x hx => ?_) ε
      · exact g.isNormal_untag ε
      · obtain ⟨c, -, hc⟩ := exists_mem_of_forall₂ hxs'.flip hx
        exact EndsWith.isNormal (c := c) hc
    · exact .tail _ (List.mem_append_left _ (List.mem_append_left _ (List.mem_map_of_mem hc)))

end Nursery

/-- **The result of a nursery**, for every list of effects and in every run in which the fiber that
runs it is not asked to stop: it ends with a value exactly if every child does, and then with the
list of their values in the order in which the effects were given; otherwise it ends with the
failure of one child as it is, beside which stands what each of the others has failed with of its
own, in that order, and every other child has been asked to stop.  This is so if nobody makes up a
handle, for then nobody else waits for the children; it is so whenever nobody else does. -/
theorem Run.nursery_result (h : Run budget (init minted) record s) {es : List (Effect ε)}
    (hdone : Evaluated s record fiber base (collectAllPar es) during o)
    (hfree : s.world.store.isInterrupted fiber = false) :
    ∃ children later, acts during = (startAll ⟨base.interruptible⟩ children es).map .deals ++ later ∧
      children.length = es.length ∧
      (PrudentRun budget minted record s →
        ∀ c ∈ children, Confides s record fiber c (.firstFailure children) ε) ∧
      ((∀ c ∈ children, Confides s record fiber c (.firstFailure children) ε) →
        ∃ exits, List.Forall₂ (EndsWith record ε) children exits ∧
          ((∃ v, o = .done v) ↔ ∀ x ∈ exits, x.isDone = true) ∧
          (∀ v, o = .done v → ∃ vs, v = .list vs ∧ exits = vs.map .done) ∧
          ∀ failure, o = .halt failure → ∃ i h, exits[i]? = some (.halt h) ∧
            failure.untag ε = ((exits.eraseIdx i).filterMap Exit.ownFailure?).foldl Halt.append h ∧
            ∀ c ∈ children.eraseIdx i, .signals c ∈ later ∧ fiber ∈ s.world.requests c) := by
  obtain ⟨children, later, hacts, hlength, hprivate, hresult⟩ : ∃ children later,
      acts during = (startAll ⟨base.interruptible⟩ children es).map .deals ++ later ∧
      children.length = es.length ∧
      (PrudentRun budget minted record s →
        ∀ c ∈ children, Confides s record fiber c (.firstFailure children) ε) ∧
      ((∀ c ∈ children, Confides s record fiber c (.firstFailure children) ε) →
        ∃ exits, List.Forall₂ (EndsWith record ε) children exits ∧
          NurseryResult ε children exits o later) := by
    rcases hdone.foreseen_of_unasked h hfree (Settles.nursery es) with
      ⟨hnone, ⟨rfl, rfl⟩ | ⟨hcut, -⟩⟩ | ⟨children, later, hacts, hlength, -, hcut | hends⟩
    · exact ⟨[], [], hnone, rfl, fun _ => nofun,
        fun _ => ⟨[], .nil, .collected List.map_nil.symm⟩⟩
    · exact hcut.elim
    · exact hcut.elim
    · exact ⟨children, later, hacts, hlength,
        fun hprudent => hprudent.confides hdone hfree isPrivate_collectAllPar hacts hlength
          (fun _ => hends.waits (hdone.nodup_of_startAll h hacts hlength)) fun _ _ => nofun,
        fun hconfides => h.result_of_nurseryEnds hconfides hends⟩
  refine ⟨children, later, hacts, hlength, hprivate, fun hconfides => ?_⟩
  obtain ⟨exits, hexits, hresult⟩ := hresult hconfides
  refine ⟨exits, hexits, hresult.done_iff, ?_, ?_⟩
  · rintro v rfl
    cases hresult with
    | collected heq => exact ⟨_, rfl, heq⟩
  · rintro failure rfl
    cases hresult with
    | @failed i g _ _ hget hfails hsignals =>
      refine ⟨i, g, hget, hfails, fun c hc => ⟨hsignals c hc, ?_⟩⟩
      -- the request comes after the start
      obtain @⟨before, after, a, -, -, -, hhistory⟩ := hdone
      obtain ⟨i', hforks⟩ := @exists_forks ⟨base.interruptible⟩ children _ hlength c
        (List.mem_of_mem_eraseIdx hc)
      have hall : acts (before ++ (during ++ after)) =
          (acts before ++ (startAll ⟨base.interruptible⟩ children es).map .deals) ++
            (later ++ acts after) := by
        rw [acts_append, acts_append, hacts]
        simp only [List.append_assoc]
      exact h.requests_of_acts hhistory hall (List.mem_append_right _ hforks)
        (List.mem_append_left _ (hsignals c hc))

/-- A nursery both of whose children fail. -/
def failingNursery : Effect ⟨"E"⟩ := collectAllPar [fail (.text "a"), fail (.text "b")]

/-- It is built without handles. -/
theorem guards_failingNursery (c : FiberId) : failingNursery.Guards c .none :=
  .collectAllPar <| List.forall_mem_cons.mpr
    ⟨.fail (.text "a"), List.forall_mem_singleton.mpr (.fail (.text "b"))⟩

/-- A nursery fails as one of its children has, with what the other one has failed with
alongside. -/
theorem Run.nursery_result_failingNursery :
    ∃ during failure, FailsTwice failingNursery during (.halt failure) ∧
      (failure.untag ⟨"E"⟩ = ⟨.fail (.text "a"), [.fail (.text "b")]⟩ ∨
        failure.untag ⟨"E"⟩ = ⟨.fail (.text "b"), [.fail (.text "a")]⟩) := by
  obtain ⟨during, failure, hfails, hacts⟩ :=
    exists_failsTwice guards_failingNursery ⟨_, rfl⟩ (by decide +kernel) (by decide +kernel)
      (by decide +kernel) (by decide +kernel) (by decide +kernel)
  obtain ⟨children, later, hstart, hlength, hprivate, hresult⟩ :=
    Run.nursery_result (run_begun failingNursery 60) hfails.evaluated hfails.free
  obtain ⟨i, j, more, heq⟩ : ∃ i j more, acts (eventsOf ⟨1⟩ (recordBegun failingNursery 60)) =
    .forks ⟨2⟩ i :: .forks ⟨3⟩ j :: .waits (.firstFailure [⟨2⟩, ⟨3⟩]) :: more := ⟨_, _, _, rfl⟩
  rw [hacts, heq] at hstart
  obtain ⟨rfl, rfl⟩ := eq_of_startAll hstart hlength
  obtain ⟨exits, hexits, -, -, hhalts⟩ := hresult (hprivate hfails.prudent)
  obtain ⟨i, h, hget, hfailure, -⟩ := hhalts failure rfl
  refine ⟨during, failure, hfails, ?_⟩
  cases hexits with
  | cons hx hrest =>
    cases hrest with
    | cons hy hnone =>
      cases hnone
      obtain rfl := hx.eq hfails.left (run_begun failingNursery 60)
      obtain rfl := hy.eq hfails.right (run_begun failingNursery 60)
      match i with
      | 0 =>
        obtain rfl := Exit.halt.inj (Option.some.inj hget)
        refine Or.inl (hfailure.trans ?_)
        simp [Exit.ownFailure?, isInterruptedOnly_of_fail, append_of_fail]
      | 1 =>
        obtain rfl := Exit.halt.inj (Option.some.inj hget)
        refine Or.inr (hfailure.trans ?_)
        simp [Exit.ownFailure?, isInterruptedOnly_of_fail, append_of_fail]

/-! ### The pair and the race -/

section Pair

variable {left right : Effect ε}

/-- **The result of a pair**, for all effects and all code that combines their values, in every run
in which the fiber that runs it is not asked to stop: if both sides end with values it ends as the
code does that combines them, hence with a value unless that panics; if one side alone fails it ends
with that failure as it is; if both have failed of their own it ends with the failure of the left
side and that of the right one alongside, whichever was first.  This is so if nobody makes up a
handle, for then nobody else waits for the children; it is so whenever nobody else does. -/
theorem Run.pair_result (h : Run budget (init minted) record s) {f : Value → Value → Action Value}
    (hdone : Evaluated s record fiber base (left.zipParWith right f) during o)
    (hfree : s.world.store.isInterrupted fiber = false) :
    ∃ l r later, acts during =
        (startAll ⟨base.interruptible⟩ [l, r] [left, right]).map .deals ++ later ∧
      (PrudentRun budget minted record s →
        ∀ c ∈ [l, r], Confides s record fiber c (.firstDone l r) ε) ∧
      ((∀ c ∈ [l, r], Confides s record fiber c (.firstDone l r) ε) →
        ∃ x y, EndsWith record ε l x ∧ EndsWith record ε r y ∧
          (∀ a b, x = .done a → y = .done b → (f a b).Gives o ∧
            ((∀ w, ∃ v, ((f a b).run w).1 = .ok v) → ∃ w v, ((f a b).run w).1 = .ok v ∧
              o = .done v)) ∧
          (∀ h b, x = .halt h → y = .done b → o.untag ε = .halt h) ∧
          (∀ a h, x = .done a → y = .halt h → o.untag ε = .halt h) ∧
          ∀ h g, x = .halt h → y = .halt g → h.cause.isInterruptedOnly = false →
            g.cause.isInterruptedOnly = false → o.untag ε = .halt (h.append g)) := by
  have hquiet := @quiet_of_unasked (confided s record fiber) id base.handling
  obtain ⟨l, r, more, hacts, ⟨-, hsettles⟩, hasks⟩ :=
    (hdone.foreseen_of_unasked h hfree (Settles.pair hquiet)).both
      (hdone.foreseen_of_unasked h hfree (Settles.pair_asksBoth hquiet)) id
  obtain hcut | ⟨x, y, hx, hy, hends⟩ := hsettles
  · exact hcut.elim
  refine ⟨l, r, _, hacts, fun hprudent => ?_, fun hconfides => ?_⟩
  · exact hprudent.confides hdone hfree isPrivate_zipParWith hacts rfl
      (fun _ => (hasks.resolve_left id).waits (hdone.nodup_of_startAll h hacts rfl)) fun _ _ => nofun
  have hx' := (hconfides l (by simp)).endsWith hx
  have hy' := (hconfides r (by simp)).endsWith hy
  have hsame : ∀ {h : Halt Value}, h.IsNormal →
      (Exit.halt (h.tag ε) : Outcome).untag ε = .halt h :=
    fun hnormal => congrArg Exit.halt (hnormal.untag_tag ε)
  refine ⟨x, y, hx', hy', ?_, ?_, ?_, ?_⟩
  · rintro a b rfl rfl
    cases hends with
    | done hgives =>
      refine ⟨hgives, fun hcalm => ?_⟩
      obtain ⟨w, ⟨v, hv, ho⟩ | ⟨d, hd, -⟩⟩ := hgives
      · exact ⟨w, v, hv, ho⟩
      · obtain ⟨v, hv⟩ := hcalm w
        cases hv.symm.trans hd
  · rintro g b rfl rfl
    cases hends with
    | left => exact hsame (hx'.isNormal g rfl)
  · rintro a g rfl rfl
    cases hends with
    | right => exact hsame (hy'.isNormal g rfl)
  · rintro h₁ h₂ rfl rfl hleft hright
    have hboth : (Exit.halt ((h₁.append h₂).tag ε) : Outcome).untag ε = .halt (h₁.append h₂) :=
      hsame ((hx'.isNormal h₁ rfl).append (hy'.isNormal h₂ rfl))
    cases hends with
    | left => rwa [Halt.keepSibling_halt hright]
    | both => exact hboth
    | cancelled honly =>
      rw [hleft] at honly
      cases honly

/-- The pair both of whose sides fail is built without handles. -/
theorem guards_failingPair (c : FiberId) : failingPair.Guards c .none :=
  .zipPar (.fail (.text "a")) (.fail (.text "b"))

/-- A pair both of whose sides fail ends with both failures, that of the left side first. -/
theorem Run.pair_result_failingPair :
    ∃ during failure, FailsTwice failingPair during (.halt failure) ∧
      failure.untag ⟨"E"⟩ = ⟨.fail (.text "a"), [.fail (.text "b")]⟩ := by
  obtain ⟨during, failure, hfails, hacts⟩ :=
    exists_failsTwice guards_failingPair ⟨_, rfl⟩ (by decide +kernel) (by decide +kernel)
      (by decide +kernel) (by decide +kernel) (by decide +kernel)
  obtain ⟨l, r, later, hstart, hprivate, hresult⟩ :=
    Run.pair_result (run_begun failingPair 60) hfails.evaluated hfails.free
  obtain ⟨i, j, more, heq⟩ : ∃ i j more, acts (eventsOf ⟨1⟩ (recordBegun failingPair 60)) =
    .forks ⟨2⟩ i :: .forks ⟨3⟩ j :: .waits (.firstDone ⟨2⟩ ⟨3⟩) :: more := ⟨_, _, _, rfl⟩
  rw [hacts, heq] at hstart
  obtain ⟨hboth, rfl⟩ := eq_of_startAll hstart rfl
  obtain ⟨rfl, hright⟩ := List.cons.inj hboth
  obtain ⟨rfl, -⟩ := List.cons.inj hright
  obtain ⟨x, y, hx, hy, -, -, -, hhalts⟩ := hresult (hprivate hfails.prudent)
  obtain rfl := hx.eq hfails.left (run_begun failingPair 60)
  obtain rfl := hy.eq hfails.right (run_begun failingPair 60)
  have hfailure := hhalts _ _ rfl rfl (isInterruptedOnly_of_fail _) (isInterruptedOnly_of_fail _)
  rw [append_of_fail] at hfailure
  exact ⟨during, failure, hfails, Exit.halt.inj hfailure⟩

/-- **The result of a race for the first success**, for all effects and in every run in which the
fiber that runs it is not asked to stop: it ends with a value exactly if one of its children does,
with that of the child whose exit it asks for first if that one has succeeded and with that of the
other one if not; if both have failed it ends with both primary causes at once, and beside them all
that was beside each.  This is so if nobody makes up a handle, for then nobody else waits for the
children; it is so whenever nobody else does. -/
theorem Run.race_result (h : Run budget (init minted) record s)
    (hdone : Evaluated s record fiber base (left.race right) during o)
    (hfree : s.world.store.isInterrupted fiber = false) :
    ∃ l r later, acts during =
        (startAll ⟨base.interruptible⟩ [l, r] [left, right]).map .deals ++ later ∧
      (PrudentRun budget minted record s →
        ∀ c ∈ [l, r], Confides s record fiber c (.firstDone l r) ε) ∧
      ((∀ c ∈ [l, r], Confides s record fiber c (.firstDone l r) ε) →
        ∃ first other x y more, ((first = l ∧ other = r) ∨ first = r ∧ other = l) ∧
          later = .waits (.firstDone l r) :: .awaits ε first :: more ∧
          EndsWith record ε first x ∧ EndsWith record ε other y ∧
          ((∃ v, o = .done v) ↔ x.isDone = true ∨ y.isDone = true) ∧
          (∀ a, x = .done a → o = .done a) ∧
          (∀ h b, x = .halt h → y = .done b → o = .done b) ∧
          ∀ h g, x = .halt h → y = .halt g →
            o.untag ε = .halt ⟨h.cause.alongside g.cause, h.remaining ++ g.remaining⟩ ∧
              (o.untag ε).leaves.Perm (x.leaves ++ y.leaves)) := by
  have hquiet := @quiet_of_unasked (confided s record fiber) id base.handling
  obtain ⟨l, r, more, hacts, ⟨-, hsettles⟩, hasks⟩ :=
    (hdone.foreseen_of_unasked h hfree (Settles.firstSuccess hquiet)).both
      (hdone.foreseen_of_unasked h hfree (Settles.race_asksBoth hquiet)) id
  obtain hcut | ⟨first, other, x, y, more', hwho, rfl, hx, hy, rfl⟩ := hsettles
  · exact hcut.elim
  refine ⟨l, r, _, hacts, fun hprudent => ?_, fun hconfides => ?_⟩
  · exact hprudent.confides hdone hfree isPrivate_race hacts rfl
      (fun _ => (hasks.resolve_left id).waits (hdone.nodup_of_startAll h hacts rfl)) fun _ _ => nofun
  have hmem : first ∈ [l, r] ∧ other ∈ [l, r] := by
    rcases hwho with ⟨rfl, rfl⟩ | ⟨rfl, rfl⟩ <;> simp
  have hx' := (hconfides first hmem.1).endsWith hx
  have hy' := (hconfides other hmem.2).endsWith hy
  refine ⟨first, other, x, y, more', hwho, rfl, hx', hy', ?_, ?_, ?_, ?_⟩
  · cases x <;> cases y <;> simp [Exit.orElse, Exit.tag, Exit.isDone]
  · rintro a rfl
    rfl
  · rintro h₁ b rfl rfl
    rfl
  · rintro h₁ h₂ rfl rfl
    have hnormal := (hx'.isNormal h₁ rfl).bothFailed (hy'.isNormal h₂ rfl)
    have hsame : ((Exit.halt h₁).orElse (.halt h₂) |>.tag ε).untag ε = .halt (bothFailed h₁ h₂) :=
      congrArg Exit.halt (hnormal.untag_tag ε)
    rw [hsame]
    exact ⟨rfl, h₁.leaves_bothFailed h₂⟩

/-- A race both of whose children fail. -/
def failingRace : Effect ⟨"E"⟩ := race (fail (.text "a")) (fail (.text "b"))

/-- It is built without handles. -/
theorem guards_failingRace (c : FiberId) : failingRace.Guards c .none :=
  .race (.fail (.text "a")) (.fail (.text "b"))

/-- A race both of whose children fail ends with both failures at once. -/
theorem Run.race_result_failingRace :
    ∃ during failure, FailsTwice failingRace during (.halt failure) ∧
      failure.untag ⟨"E"⟩ = ⟨.par (.fail (.text "a")) (.fail (.text "b")), []⟩ := by
  obtain ⟨during, failure, hfails, hacts⟩ :=
    exists_failsTwice guards_failingRace ⟨_, rfl⟩ (by decide +kernel) (by decide +kernel)
      (by decide +kernel) (by decide +kernel) (by decide +kernel)
  obtain ⟨l, r, later, hstart, hprivate, hresult⟩ :=
    Run.race_result (run_begun failingRace 60) hfails.evaluated hfails.free
  obtain ⟨i, j, more, heq⟩ : ∃ i j more, acts (eventsOf ⟨1⟩ (recordBegun failingRace 60)) =
    .forks ⟨2⟩ i :: .forks ⟨3⟩ j :: .waits (.firstDone ⟨2⟩ ⟨3⟩) :: .awaits ⟨"E"⟩ ⟨2⟩ :: more :=
      ⟨_, _, _, rfl⟩
  rw [hacts, heq] at hstart
  obtain ⟨hboth, rfl⟩ := eq_of_startAll hstart rfl
  obtain ⟨rfl, hright⟩ := List.cons.inj hboth
  obtain ⟨rfl, -⟩ := List.cons.inj hright
  obtain ⟨first, other, x, y, more', hwho, hlater, hx, hy, -, -, -, hhalts⟩ :=
    hresult (hprivate hfails.prudent)
  -- the left child is asked first
  obtain ⟨hfirst, -⟩ := List.cons.inj (List.cons.inj hlater).2
  obtain ⟨rfl, -⟩ := Registration.awaitExit.inj (Act.waits.inj hfirst)
  obtain ⟨-, rfl⟩ | ⟨heq, -⟩ := hwho
  · obtain rfl := hx.eq hfails.left (run_begun failingRace 60)
    obtain rfl := hy.eq hfails.right (run_begun failingRace 60)
    exact ⟨during, failure, hfails, Exit.halt.inj (hhalts _ _ rfl rfl).1⟩
  · cases heq

end Pair

end Workshop

end Fibers
