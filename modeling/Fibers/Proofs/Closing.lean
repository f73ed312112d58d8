import Fibers.Effect.Shared
import Fibers.Proofs.Lines

/-!
# The end of a channel

The first fiber to close a channel ends it for everyone.  What the channel holds is discarded with
the elements of those who wait for room, everyone who stands in one of its lines is woken once, and
nobody comes to stand there again: whatever is asked of the channel afterwards is answered at once,
in the same way for ever.

That nobody is forgotten rests on the lines being in order, which holds at every moment of a run and
not only between two iterations; that it stays so rests on a chronicle having nothing to tell of a
closed channel but refusals.

## Main definitions

* `Line.farewell` — what is told to those who stand in a line of a channel that is closed.
* `Channel.ended` — what is left of the channel.
* `World.wakes` — the tasks of those who are woken.
* `World.IsOverAtOnce` — an instruction for which nobody waits, and that leaves channels alone.
* `World.Shut`, `World.Ends` — a channel after its end, and what the end does.

## Main results

* `Chronicle.stays_shut` — **a closed channel stays as it is**, and only refuses.
* `World.shut_of_closed` — everything that can be asked of it is over at once.
* `World.ends_of_open` — closing wakes everyone who stands in line, once.
* `Workshop.Run.closes_for_good` — the end of a channel in a run.
-/

namespace Fibers

/-- What is told to those who stand in a line of a channel that is closed. -/
def Line.farewell {α : Type} (source : FiberId) : Line → Answer α
  | .takers => .closed source
  | .offerers => .closed source
  | .watchers => .done

namespace Channel

variable {α σ : Type}

/-- What is left of a channel that has been closed on behalf of a fiber. -/
def ended (ch : Channel α σ) (source : FiberId) : Channel α σ :=
  { ch with buffer := .empty, takers := [], offerers := [], watchers := [],
            closedBy := some source }

@[simp] theorem contents_ended (ch : Channel α σ) (source : FiberId) :
    (ch.ended source).contents = [] := rfl

@[simp] theorem entries_ended (ch : Channel α σ) (source : FiberId) :
    (ch.ended source).entries = [] := rfl

@[simp] theorem closedBy_ended (ch : Channel α σ) (source : FiberId) :
    (ch.ended source).closedBy = some source := rfl

/-- Closing a channel tells everyone who stands in line. -/
theorem serve_close_of_open {ch : Channel α σ} (hopen : ch.closedBy = none) (source : FiberId) :
    ch.serve (.close source) =
      (ch.entries.map fun e => (e.place, e.line.farewell source), ch.ended source) := by
  simp [serve, close, isClosed, hopen, entries, ended, Line.farewell, Function.comp_def]

end Channel

/-! ### A closed channel stays as it is -/

/-- **A closed channel stays as it is**, and whatever has been asked of it has been refused. -/
theorem Chronicle.stays_shut {w w' : World} {deeds : List Deed} (h : Chronicle w deeds w')
    (hw : w.Orderly) {c : ChannelId} {ch : Channel Value SuspensionId} {source : FiberId}
    (hch : w.store.channel? c = some ch) (hclosed : ch.closedBy = some source)
    (hempty : ch.entries = []) :
    w'.store.channel? c = some ch ∧
      answersAt c deeds = (requestsAt c deeds).flatMap (Queue.serveClosed source) := by
  induction h with
  | @idle w w' hidle =>
    refine ⟨?_, rfl⟩
    rw [Store.channel?, hidle.channels]
    exact hch
  | opened _ _ _ _ | parked _ _ _ _ _ _ | vacated _ _ _ | finished _ _ _ => exact ⟨hch, rfl⟩
  | completed outcome _ _ =>
    refine ⟨?_, rfl⟩
    rw [World.store_resume]
    exact hch
  | interrupted source hplace hstate hstays _ ih =>
    exact ih (hw.vacate hplace rfl (hw.out_of_waiting hplace hstate hstays)) hch
  | @left w s place run d ch' line ticket source' hplace hstate hch' =>
    -- nobody stands in a line of the closed channel, so another one is left
    have hne : c ≠ d := by
      rintro rfl
      obtain ⟨ch₁, hch₁, hentry⟩ := hw.leaves hplace hstate
      obtain rfl := Option.some.inj (hch.symm.trans hch₁)
      rw [hempty] at hentry
      cases hentry
    refine ⟨?_, ?_⟩
    · exact (World.channel?_setChannel (w := w.setSuspension s .over) hch').trans
        ((if_neg hne).trans hch)
    · rw [requestsAt_left, if_neg (Ne.symm hne)]
      rfl
  | @made w capacity _ =>
    refine ⟨?_, rfl⟩
    rw [World.channel?_push, if_neg, hch]
    rintro rfl
    rw [Store.channel?, Numbered.get?_next] at hch
    cases hch
  | @asked w d ch' request hch' hasks =>
    rw [requestsAt_asked, answersAt_asked, World.channel?_ask hch']
    by_cases hc : d = c
    · subst hc
      obtain rfl := Option.some.inj (hch.symm.trans hch')
      rw [Channel.serve_of_closed hclosed hasks.stays]
      simp
    · simp [hc, Ne.symm hc, hch]
  | trans h _ ih ih' =>
    obtain ⟨hch', hanswers⟩ := ih hw hch
    obtain ⟨hch'', hanswers'⟩ := ih' (h.orderly hw) hch'
    refine ⟨hch'', ?_⟩
    rw [requestsAt_append, answersAt_append, List.flatMap_append, hanswers, hanswers']

/-! ### What is asked of a closed channel -/

namespace World

variable {w w' : World} {c : ChannelId} {ch : Channel Value SuspensionId} {source : FiberId}

/-- Nothing happens to channels, and nobody is woken or comes to be parked. -/
structure Passes (w w' : World) : Prop where
  /-- The channels are the same. -/
  channels : w'.store.channels = w.store.channels
  /-- The same fibers are ready. -/
  tasks : w'.tasks = w.tasks
  /-- The places are the same. -/
  places : ∀ {t p}, w.suspension? t = some p → w'.suspension? t = some p
  /-- A new place is done with. -/
  used : ∀ {t p}, w.suspension? t = none → w'.suspension? t = some p → p.state = .over

theorem Passes.refl (w : World) : w.Passes w where
  channels := rfl
  tasks := rfl
  places hp := hp
  used hnone hp := by
    rw [hnone] at hp
    cases hp

/-- An instruction that is over at once, for every fiber that comes to it, without anybody waiting,
and that leaves channels alone. -/
def IsOverAtOnce (w : World) (i : Instruction) (outcome : Outcome) : Prop :=
  ∀ fiber run, w.mustStop fiber run = false →
    ∃ w', w.iterate fiber run (.eval i) = (some (run, .ofOutcome outcome), w') ∧ w.Passes w'

theorem iterate_eval {fiber : FiberId} {run : RunState} (hgoes : w.mustStop fiber run = false)
    (i : Instruction) : w.iterate fiber run (.eval i) = w.evaluate fiber run i := by
  simp [iterate, divert, hgoes]

/-- Code that finds an outcome without doing anything. -/
theorem isOverAtOnce_sync {code : Action Outcome} {outcome : Outcome}
    (h : code.run w = (.ok outcome, w)) : w.IsOverAtOnce (.sync code) outcome := by
  intro fiber run hgoes
  refine ⟨w, ?_, .refl w⟩
  rw [iterate_eval hgoes]
  simp [evaluate, h]

/-- An effect that ends with the cancellation of whoever closed the channel. -/
theorem isOverAtOnce_unlessClosed {ε : ErrorType} {found : Action (Except FiberId Value)}
    (h : found.run w = (.ok (.error source), w)) :
    w.IsOverAtOnce (ChannelId.unlessClosed found : Effect ε) (.interrupt source) := by
  apply isOverAtOnce_sync
  rw [Action.run_bind, h]
  rfl

/-- Whoever wants to wait at a closed channel is told so. -/
theorem register_of_closed (hch : w.store.channel? c = some ch)
    (hclosed : ch.closedBy = some source) {registration : Registration} {line : Line}
    (hline : registration.line? = some (c, line)) (t : SuspensionId) :
    w.register t registration =
      (.ok .nothing, (w.resume t (line.farewell source).outcome).2) := by
  cases registration with
  | offer d v =>
    obtain ⟨rfl, rfl⟩ := Prod.mk.inj (Option.some.inj hline)
    simp [register, registerOffer, hch, Channel.offer?, hclosed, Line.farewell, Answer.outcome]
  | take d =>
    obtain ⟨rfl, rfl⟩ := Prod.mk.inj (Option.some.inj hline)
    simp [register, registerTake, hch, hclosed, Line.farewell, Answer.outcome]
  | awaitClose d =>
    obtain ⟨rfl, rfl⟩ := Prod.mk.inj (Option.some.inj hline)
    simp [register, registerClose, hch, Channel.isClosed, hclosed, Line.farewell, Answer.outcome]
  | callback _ | sleep _ | awaitExit _ _ | firstDone _ _ | firstFailure _ => cases hline

/-- The wait at a place that has just been made is completed before anybody is parked there. -/
theorem resume_newSuspension (w : World) (fiber : FiberId) (allowed : Bool)
    (registration : Registration) (outcome : Outcome) :
    ((w.newSuspension fiber allowed registration).2.resume
        (w.newSuspension fiber allowed registration).1 outcome).2 =
      (w.newSuspension fiber allowed registration).2.setSuspension
        (w.newSuspension fiber allowed registration).1 (.early outcome) := by
  have hnew := w.suspension?_newSuspension fiber allowed registration
    (w.newSuspension fiber allowed registration).1
  rw [if_pos rfl] at hnew
  simp [resume, hnew]

/-- Nobody waits at a closed channel. -/
theorem isOverAtOnce_wait (hch : w.store.channel? c = some ch)
    (hclosed : ch.closedBy = some source) (registration : Registration) {line : Line}
    (hline : registration.line? = some (c, line)) :
    w.IsOverAtOnce (.wait registration) (line.farewell source).outcome := by
  intro fiber run hgoes
  have hnew := w.suspension?_newSuspension fiber run.interruptible registration
  have hnone := w.suspension?_next fiber run.interruptible registration
  have hresume := w.resume_newSuspension fiber run.interruptible registration
  rw [iterate_eval hgoes]
  simp only [evaluate, park]
  generalize hpair : w.newSuspension fiber run.interruptible registration = new
    at hnew hnone hresume
  obtain ⟨t, w₁⟩ := new
  have hsame : w₁.store.channels = w.store.channels ∧ w₁.tasks = w.tasks := by
    obtain ⟨-, rfl⟩ := Prod.mk.inj hpair
    exact ⟨rfl, rfl⟩
  have hch₁ : w₁.store.channel? c = some ch := by
    rw [Store.channel?, hsame.1]
    exact hch
  simp only at hnew hnone hresume ⊢
  have hearly : (w₁.setSuspension t (.early (line.farewell source).outcome)).suspension? t =
      some ⟨fiber, run.interruptible, registration, .early (line.farewell source).outcome⟩ := by
    rw [suspension?_setSuspension, if_pos rfl, hnew, if_pos rfl]
    rfl
  rw [register_of_closed hch₁ hclosed hline t, hresume]
  simp only [hearly, Option.map_some]
  refine ⟨_, rfl, ?_⟩
  have hplaces : ∀ s, ((w₁.setSuspension t (.early (line.farewell source).outcome)).setSuspension t
      .over).suspension? s =
        if s = t then some ⟨fiber, run.interruptible, registration, .over⟩
        else w.suspension? s := by
    intro s
    rw [suspension?_setSuspension, hearly]
    split
    · rfl
    · next hne => rw [suspension?_setSuspension, if_neg hne, hnew, if_neg hne]
  refine ⟨hsame.1, hsame.2, fun {s p} hp => ?_, fun {s p} hnot hp => ?_⟩
  · rw [hplaces, if_neg, hp]
    rintro rfl
    rw [hnone] at hp
    cases hp
  · rw [hplaces] at hp
    split at hp
    · obtain rfl := Option.some.inj hp
      rfl
    · rw [hnot] at hp
      cases hp

/-- **A channel after its end.**  It holds nothing, nobody stands in its lines, and whatever is
asked of it is over at once. -/
structure Shut (w : World) (c : ChannelId) (ch : Channel Value SuspensionId) (source : FiberId) :
    Prop where
  channel : w.store.channel? c = some ch
  closedBy : ch.closedBy = some source
  contents : ch.contents = []
  entries : ch.entries = []
  /-- Elements are neither taken nor stored, and nobody waits. -/
  offer : ∀ (ε : ErrorType) v, w.IsOverAtOnce (c.offer v : Effect ε) (.interrupt source)
  take : ∀ ε : ErrorType, w.IsOverAtOnce (c.take : Effect ε) (.interrupt source)
  poll : ∀ ε : ErrorType, w.IsOverAtOnce (c.poll : Effect ε) (.interrupt source)
  takeUpTo : ∀ (ε : ErrorType) n, w.IsOverAtOnce (c.takeUpTo n : Effect ε) (.interrupt source)
  takeAll : ∀ ε : ErrorType, w.IsOverAtOnce (c.takeAll : Effect ε) (.interrupt source)
  size : ∀ ε : ErrorType, w.IsOverAtOnce (c.size : Effect ε) (.interrupt source)
  /-- The end is there for those who ask about it. -/
  awaitClose : ∀ ε : ErrorType, w.IsOverAtOnce (c.awaitClose : Effect ε) (.done .unit)
  isClosed : ∀ ε : ErrorType, w.IsOverAtOnce (c.isClosed : Effect ε) (.done (.bool true))
  /-- Closing the channel once more changes nothing, from outside or in a fiber. -/
  close : ∀ source', w.close c source' = w
  evaluated : ∀ (ε : ErrorType) fiber run, w.mustStop fiber run = false →
    w.iterate fiber run (.eval (c.close : Effect ε)) = (some (run, .eval (.value .unit)), w)

/-- Looking at the store. -/
theorem run_observe (w : World) : Action.observe.run w = (.ok w.store.shown, w) := rfl

/-- Draining a closed channel finds out who has closed it. -/
theorem run_drain_of_closed (hch : w.store.channel? c = some ch)
    (hclosed : ch.closedBy = some source) (limit : Option Nat) :
    (Action.drain c limit).run w = (.ok (.error source), w) := by
  have hdrain : w.drain c limit = (.error source, w) := by simp only [drain, hch, hclosed]
  show (Except.ok (w.drain c limit).1, (w.drain c limit).2) = (.ok (.error source), w)
  rw [hdrain]

/-- Whatever is made of what is drained from a closed channel. -/
theorem isOverAtOnce_drain (hch : w.store.channel? c = some ch)
    (hclosed : ch.closedBy = some source) (ε : ErrorType) (limit : Option Nat)
    (shape : List Value → Value) :
    w.IsOverAtOnce (ChannelId.unlessClosed (ε := ε) do
      let drained ← Action.drain c limit
      pure (drained.map shape)) (.interrupt source) := by
  apply isOverAtOnce_unlessClosed
  rw [Action.run_bind, run_drain_of_closed hch hclosed]
  rfl

/-- A closed channel is not closed once more. -/
theorem close_of_closed (hch : w.store.channel? c = some ch) (hclosed : ch.closedBy = some source)
    (source' : FiberId) : w.close c source' = w := by
  simp [World.close, hch, Channel.close, Channel.isClosed, hclosed]

/-- Everything that can be asked of a closed channel is over at once. -/
theorem shut_of_closed (hch : w.store.channel? c = some ch) (hclosed : ch.closedBy = some source)
    (hcontents : ch.contents = []) (hentries : ch.entries = []) : w.Shut c ch source where
  channel := hch
  closedBy := hclosed
  contents := hcontents
  entries := hentries
  offer _ v := isOverAtOnce_wait hch hclosed (.offer c v) rfl
  take _ := isOverAtOnce_wait hch hclosed (.take c) rfl
  poll ε := isOverAtOnce_drain hch hclosed ε (some 1) fun vs => .ofOption vs.head?
  takeUpTo ε n := isOverAtOnce_drain hch hclosed ε (some n) .list
  takeAll ε := isOverAtOnce_drain hch hclosed ε none .list
  size _ := by
    apply isOverAtOnce_unlessClosed
    have hshown : w.store.shown.channel? c = some ch := hch
    rw [Action.run_bind, run_observe]
    simp only [hshown, hclosed]
    rfl
  awaitClose _ := isOverAtOnce_wait hch hclosed (.awaitClose c) rfl
  isClosed _ := by
    apply isOverAtOnce_sync
    have hshown : w.store.shown.channel? c = some ch := hch
    rw [Action.run_bind, Action.run_bind, run_observe]
    simp only [hshown]
    have hbool : (some ch).any Channel.isClosed = true := by simp [Channel.isClosed, hclosed]
    rw [hbool]
    rfl
  close source' := close_of_closed hch hclosed source'
  evaluated ε fiber run hgoes := by
    have hclose := close_of_closed hch hclosed fiber
    refine (iterate_eval hgoes _).trans ?_
    show (some (run, Step.eval (.value .unit)), w.close c fiber) = _
    rw [hclose]

/-! ### Who is woken by the end -/

/-- The task of the fiber that is parked at a place, if one is, with the outcome of its wait. -/
def wakes? (w : World) (t : SuspensionId) (outcome : Outcome) : Option Task :=
  (w.suspension? t).bind fun p => p.state.run?.map fun run => ⟨p.fiber, run, .ofOutcome outcome⟩

/-- The tasks of those who are woken, in that order. -/
def wakes (w : World) (told : List (SuspensionId × Answer Value)) : List Task :=
  told.filterMap fun t => w.wakes? t.1 t.2.outcome

theorem tasks_resume (w : World) (t : SuspensionId) (outcome : Outcome) :
    (w.resume t outcome).2.tasks.toList = w.tasks.toList ++ (w.wakes? t outcome).toList := by
  unfold resume wakes?
  cases hp : w.suspension? t with
  | none => simp
  | some p =>
    cases hstate : p.state <;> simp [hstate, SuspensionState.run?, setSuspension, schedule]

/-- The wait at a place where something is told is over, with what is told. -/
theorem suspension?_tell_of_mem {told : List (SuspensionId × Answer Value)}
    (hnodup : (told.map Prod.fst).Nodup) {t : SuspensionId} {answer : Answer Value}
    (hmem : (t, answer) ∈ told) {p : Suspension} (hp : w.suspension? t = some p) :
    (w.tell told).suspension? t =
      some { p with state := p.state.completed answer.outcome } := by
  unfold tell
  induction told generalizing w with
  | nil => cases hmem
  | cons u told ih =>
    rw [List.map_cons, List.nodup_cons] at hnodup
    rw [List.foldl_cons]
    rcases List.mem_cons.mp hmem with rfl | hrest
    · have hlater : ((w.resume t answer.outcome).2.tell told).suspension? t =
          (w.resume t answer.outcome).2.suspension? t := suspension?_tell_other hnodup.1
      show ((w.resume t answer.outcome).2.tell told).suspension? t = _
      rw [hlater, suspension?_resume, if_pos rfl, hp, Option.map_some]
    · have hne : t ≠ u.1 := fun heq =>
        hnodup.1 (heq ▸ List.mem_map_of_mem (f := Prod.fst) hrest)
      apply ih hnodup.2 hrest
      rw [suspension?_resume, if_neg hne, hp]

/-- Whoever is parked at a place where something is told is woken, in that order. -/
theorem tasks_tell {told : List (SuspensionId × Answer Value)}
    (hnodup : (told.map Prod.fst).Nodup) : (w.tell told).tasks.toList = w.tasks.toList ++ w.wakes told := by
  unfold tell wakes
  induction told generalizing w with
  | nil => simp
  | cons t told ih =>
    rw [List.map_cons, List.nodup_cons] at hnodup
    -- the others are parked where they were
    have hothers : (told.filterMap fun u => (w.resume t.1 t.2.outcome).2.wakes? u.1 u.2.outcome) =
        told.filterMap fun u => w.wakes? u.1 u.2.outcome := by
      apply List.filterMap_congr
      intro u hu
      have hne : u.1 ≠ t.1 := fun heq => hnodup.1 (heq ▸ List.mem_map_of_mem hu)
      rw [wakes?, wakes?, suspension?_resume, if_neg hne]
    rw [List.foldl_cons, ih hnodup.2, hothers, tasks_resume, List.append_assoc]
    congr 1
    cases hwakes : w.wakes? t.1 t.2.outcome <;> simp [hwakes]

end World

/-- What is found for one member of a list only. -/
theorem filterMap_eq_singleton {α β : Type} {l : List α} {f : α → Option β} {a : α} {b : β}
    (hmem : a ∈ l) (hnodup : l.Nodup) (hsome : f a = some b)
    (hnone : ∀ a' ∈ l, a' ≠ a → f a' = none) : l.filterMap f = [b] := by
  obtain ⟨before, after, rfl⟩ := List.append_of_mem hmem
  rw [List.nodup_append, List.nodup_cons] at hnodup
  have hbefore : before.filterMap f = [] := by
    rw [List.filterMap_eq_nil_iff]
    intro a' ha'
    exact hnone a' (by simp [ha']) (hnodup.2.2 a' ha' a List.mem_cons_self)
  have hafter : after.filterMap f = [] := by
    rw [List.filterMap_eq_nil_iff]
    intro a' ha'
    exact hnone a' (by simp [ha']) fun heq => hnodup.2.1.1 (heq ▸ ha')
  rw [List.filterMap_append, List.filterMap_cons_some hsome, hbefore, hafter]
  rfl

namespace World

variable {w w' : World} {c : ChannelId} {ch : Channel Value SuspensionId} {source : FiberId}

/-- A fiber is parked at one place. -/
theorem Orderly.place_eq (hw : w.Orderly) {t t' : SuspensionId} {p p' : Suspension}
    {run run' : RunState} (hp : w.suspension? t = some p) (hrun : p.state.run? = some run)
    (hp' : w.suspension? t' = some p') (hrun' : p'.state.run? = some run')
    (hsame : p.fiber = p'.fiber) : t = t' := by
  have hwaits : ∀ {q : Suspension} {rest}, q.state.run? = some rest →
      ∃ onInterrupt, q.state = .waiting rest onInterrupt := by
    intro q rest hrest
    cases hstate : q.state <;> simp [hstate, SuspensionState.run?] at hrest
    exact ⟨_, by rw [hrest]⟩
  obtain ⟨onInterrupt, hstate⟩ := hwaits hrun
  obtain ⟨onInterrupt', hstate'⟩ := hwaits hrun'
  obtain ⟨r, hr, hs⟩ := hw.recorded hp hstate
  obtain ⟨r', hr', hs'⟩ := hw.recorded hp' hstate'
  rw [hsame] at hr
  obtain rfl := Option.some.inj (hr.symm.trans hr')
  exact Option.some.inj (hs.symm.trans hs')

/-- What is told to those who stand in the lines of a channel that is closed. -/
def farewells (ch : Channel Value SuspensionId) (source : FiberId) :
    List (SuspensionId × Answer Value) :=
  ch.entries.map fun e => (e.place, e.line.farewell source)

/-- A fiber that is parked in a line is woken once. -/
theorem filter_wakes_farewells (hw : w.Orderly) (hch : w.store.channel? c = some ch)
    {e : Entry SuspensionId} (he : e ∈ ch.entries) {p : Suspension} {run : RunState}
    (hp : w.suspension? e.place = some p) (hrun : p.state.run? = some run) :
    (w.wakes (farewells ch source)).filter (·.fiber = p.fiber) =
      [⟨p.fiber, run, .ofOutcome (e.line.farewell source).outcome⟩] := by
  have hplaces := (hw.channels hch).places
  rw [wakes, farewells, List.filterMap_map, List.filter_filterMap]
  apply filterMap_eq_singleton he (List.Nodup.of_map _ hplaces)
  · simp [wakes?, hp, hrun]
  · intro e' he' hne
    obtain ⟨p', hp', -, -⟩ := hw.lines hch he'
    cases hrun' : p'.state.run? with
    | none => simp [wakes?, hp', hrun']
    | some run' =>
      -- another one who is parked is another fiber
      have hother : p'.fiber ≠ p.fiber := fun hsame =>
        hne (List.inj_on_of_nodup_map hplaces he' he (hw.place_eq hp' hrun' hp hrun hsame))
      simp [wakes?, hp', hrun', hother]

/-- **What the end of a channel does**, which somebody closes on behalf of a fiber. -/
structure Ends (w : World) (c : ChannelId) (ch : Channel Value SuspensionId) (source : FiberId) :
    Prop where
  /-- This is what comes of closing it from outside, and of closing it in a fiber. -/
  closed : (Action.close c source).run w = (.ok (), w.close c source)
  evaluated : ∀ (ε : ErrorType) run, w.mustStop source run = false →
    w.iterate source run (.eval (c.close : Effect ε)) =
      (some (run, .eval (.value .unit)), w.close c source)
  /-- What the channel holds is discarded, and its lines are empty; the other channels stay. -/
  channel : (w.close c source).store.channel? c = some (ch.ended source)
  others : ∀ {d}, d ≠ c → (w.close c source).store.channel? d = w.store.channel? d
  /-- Those who are parked in its lines are woken, and nobody else is. -/
  tasks : (w.close c source).tasks.toList = w.tasks.toList ++ w.wakes (farewells ch source)
  woken : ∀ task ∈ w.wakes (farewells ch source), ∃ line t, w.Lined c line t task.fiber
  /-- Everyone who stands in a line has waited for the channel, and the wait is over. -/
  waits : ∀ e ∈ ch.entries, ∃ p, w.suspension? e.place = some p ∧
    p.registration.line? = some (c, e.line) ∧ w.isLive e.place = true ∧
    (w.close c source).suspension? e.place =
      some { p with state := p.state.completed (e.line.farewell source).outcome }
  /-- Whoever is parked there is woken once: those who wait for an element or for room with the
  cancellation of the fiber that has closed the channel, those who wait for the end with nothing. -/
  once : ∀ e ∈ ch.entries, ∀ {p run onInterrupt}, w.suspension? e.place = some p →
    p.state = .waiting run onInterrupt →
      (w.wakes (farewells ch source)).filter (·.fiber = p.fiber) =
        [⟨p.fiber, run, .ofOutcome (e.line.farewell source).outcome⟩]
  /-- The channel stays as it is for ever. -/
  shut : ∀ {deeds w'}, Chronicle (w.close c source) deeds w' → w'.Shut c (ch.ended source) source
  /-- Whatever is asked of it is refused, and no element goes anywhere. -/
  refuses : ∀ {deeds w'}, Chronicle (w.close c source) deeds w' →
    answersAt c deeds = (requestsAt c deeds).flatMap (Queue.serveClosed source) ∧
      Queue.elements (answersAt c deeds) = []
  /-- Nothing ends the waits once more. -/
  late : ∀ {deeds w'}, Chronicle (w.close c source) deeds w' → ∀ e ∈ ch.entries,
    deeds.countP (·.ends e.place) = 0

/-- Nobody is told an element by a closed channel. -/
theorem elements_refusals (source : FiberId) (rs : List (Request Value SuspensionId)) :
    Queue.elements (rs.flatMap (Queue.serveClosed source)) = [] := by
  apply Queue.elements_eq_nil
  intro t ht
  obtain ⟨r, -, hr⟩ := List.mem_flatMap.mp ht
  cases r <;> simp [Queue.serveClosed] at hr <;> rw [hr] <;> rfl

/-- **Closing a channel ends it for everyone, for good.** -/
theorem ends_of_open (hw : w.Orderly) (hch : w.store.channel? c = some ch)
    (hopen : ch.closedBy = none) (source : FiberId) : w.Ends c ch source := by
  have hserve := Channel.serve_close_of_open hopen source
  have hclose : w.close c source =
      (w.setChannel c (ch.ended source)).tell (farewells ch source) := by
    rw [close_eq hch, ask, hserve]
    rfl
  have hplaces : ((farewells ch source).map Prod.fst).Nodup := by
    have hnodup := (hw.channels hch).places
    rw [farewells, List.map_map]
    exact hnodup
  have hchannel : ∀ d, (w.close c source).store.channel? d =
      if d = c then some (ch.ended source) else w.store.channel? d := by
    intro d
    rw [hclose, store_tell, channel?_setChannel hch]
  have hself : (w.close c source).store.channel? c = some (ch.ended source) := by
    rw [hchannel, if_pos rfl]
  have hdeeds := (w.chronicles_close c source).orderly hw
  -- the place of someone in line keeps what it is for, and the wait is over
  have hplace : ∀ e ∈ ch.entries, ∀ {p}, w.suspension? e.place = some p →
      (w.close c source).suspension? e.place =
        some { p with state := p.state.completed (e.line.farewell source).outcome } := by
    intro e he p hp
    rw [hclose]
    exact suspension?_tell_of_mem hplaces (List.mem_map.mpr ⟨e, he, rfl⟩) hp
  refine ⟨rfl, fun ε run hgoes => ?_, hself, fun {d} hne => ?_, ?_, fun task htask => ?_,
    fun e he => ?_, fun e he p run onInterrupt hp hstate => ?_, fun {deeds w'} h => ?_,
    fun {deeds w'} h => ?_, fun {deeds w'} h e he => ?_⟩
  · exact (iterate_eval hgoes _).trans rfl
  · rw [hchannel, if_neg hne]
  · rw [hclose]
    exact tasks_tell hplaces
  · obtain ⟨u, hu, hsome⟩ := List.mem_filterMap.mp htask
    obtain ⟨e, he, rfl⟩ := List.mem_map.mp hu
    obtain ⟨p, hp, hline, hstate⟩ := hw.lines hch he
    rw [wakes?, hp, Option.bind_some] at hsome
    obtain ⟨run, hrun, rfl⟩ := Option.map_eq_some_iff.mp hsome
    rcases hstate with hstate | ⟨run', hstate⟩
    · rw [hstate] at hrun
      cases hrun
    · exact ⟨e.line, e.place, p, run', _, hp, rfl, hline, hstate⟩
  · obtain ⟨p, hp, hline, -⟩ := hw.lines hch he
    exact ⟨p, hp, hline, hw.isLive_of_entry hch he, hplace e he hp⟩
  · exact filter_wakes_farewells hw hch he hp (by rw [hstate]; rfl)
  · obtain ⟨hch', -⟩ := h.stays_shut hdeeds hself rfl rfl
    exact shut_of_closed hch' rfl rfl rfl
  · obtain ⟨-, hanswers⟩ := h.stays_shut hdeeds hself rfl rfl
    refine ⟨hanswers, ?_⟩
    rw [hanswers]
    exact elements_refusals source _
  · obtain ⟨p, hp, -, -⟩ := hw.lines hch he
    have hover : (w.close c source).isOver e.place = true := by
      rw [isOver, hplace e he hp]
      exact SuspensionState.isOver_completed _ _
    have hends := h.countP_ends_le hdeeds e.place
    rw [hover, Bool.toNat_true] at hends
    have hmost := Bool.toNat_le (w'.isOver e.place)
    omega

/-- Whoever is parked in a line stands there until the wait is over, whatever happens to the world,
unless the wait began before the channel was made. -/
theorem Posted.stands {record : List (FiberId × Event)} (hposted : w.Posted record)
    (hw : w.Orderly) (hlater : w.Chronicles w') (hch : w'.store.channel? c = some ch) {line : Line}
    {t : SuspensionId} {fiber : FiberId} (hlined : w.Lined c line t fiber)
    (hmade : ∀ registration, registration.line? = some (c, line) →
      ¬ WaitedEarly record fiber registration c) :
    w'.isOver t = true ∨ (w'.Lined c line t fiber ∧ ∃ ticket, ⟨line, ticket, t⟩ ∈ ch.entries) := by
  obtain ⟨deeds, hdeeds⟩ := hlater
  obtain ⟨p, run, onInterrupt, hp, rfl, hline, hstate⟩ := hlined
  rcases (hposted hp).leaves hstate hline with ⟨ticket, rfl⟩ | hearly
  · obtain ⟨ch₀, hch₀, hentry⟩ := hw.leaves hp hstate
    rcases hdeeds.inLine hw ⟨ch₀, hch₀, List.mem_map_of_mem (f := Entry.place) hentry⟩ with
      ⟨ch₁, hch₁, hmem⟩ | hover
    · obtain rfl := Option.some.inj (hch.symm.trans hch₁)
      obtain ⟨e, he, rfl⟩ := List.mem_map.mp hmem
      -- the place is for the same wait, and its registration is not under way again
      obtain ⟨state, hkept⟩ := hdeeds.preserves.place hp
      obtain ⟨p', hp', hline', hstate'⟩ := (hdeeds.orderly hw).lines hch he
      obtain rfl := Option.some.inj (hkept.symm.trans hp')
      rw [hline, Option.some.injEq, Prod.mk.injEq] at hline'
      obtain ⟨-, rfl⟩ := hline'
      obtain ⟨p'', hp'', hbegun⟩ := hdeeds.begun ⟨p, hp, (hposted hp).begun⟩
      obtain rfl := Option.some.inj (hkept.symm.trans hp'')
      rcases hstate' with hregistering | ⟨run', hwaiting⟩
      · exact absurd hregistering hbegun
      · exact Or.inr ⟨⟨_, run', _, hkept, rfl, hline, hwaiting⟩, e.ticket, he⟩
    · exact Or.inl hover
  · exact absurd hearly (hmade _ hline)

end World

namespace Workshop

/-- A channel that has been closed stays closed, whatever moves are made. -/
theorem Run.stays_shut {budget : Nat} {s s' : Workshop} {record : List (FiberId × Event)}
    (h : Run budget s record s') (hvalid : s.Valid) (hw : s.world.Orderly) {c : ChannelId}
    {ch : Channel Value SuspensionId} {source : FiberId} (hshut : s.world.Shut c ch source) :
    s'.world.Shut c ch source := by
  obtain ⟨deeds, hdeeds⟩ := h.exists_chronicle hvalid hw
  obtain ⟨hch, -⟩ := hdeeds.stays_shut hw hshut.channel hshut.closedBy hshut.entries
  exact World.shut_of_closed hch hshut.closedBy hshut.contents hshut.entries

/-- **The end of a channel is complete and final.**  At any moment of a run, also in the middle of a
move, the first one to close a channel ends it for everyone, for good; and everyone who is parked
for it stands in its lines then, unless the wait is over. -/
theorem Run.closes_for_good {budget minted : Nat} {s : Workshop}
    {record : List (FiberId × Event)} (h : Run budget (init minted) record s) {w : World}
    (hmoment : s.world.Chronicles w) {c : ChannelId} {ch : Channel Value SuspensionId}
    (hch : w.store.channel? c = some ch) (hopen : ch.closedBy = none) (source : FiberId) :
    w.Ends c ch source ∧
      ∀ {line t fiber}, s.world.Lined c line t fiber →
        (∀ registration, registration.line? = some (c, line) →
          ¬ World.WaitedEarly record fiber registration c) →
        w.isOver t = true ∨
          (w.Lined c line t fiber ∧ ∃ ticket, ⟨line, ticket, t⟩ ∈ ch.entries) := by
  have hinit := World.orderly_init minted
  have hposted := h.posted (valid_init minted) hinit (posted_init minted)
  obtain ⟨deeds, hdeeds⟩ := h.exists_chronicle (valid_init minted) hinit
  have hw := hdeeds.orderly hinit
  refine ⟨World.ends_of_open (hmoment.orderly hw) hch hopen source, ?_⟩
  intro line t fiber hlined hmade
  exact hposted.stands hw hmoment hch hlined hmade

/-- A channel with room for one element is closed while a second element waits for room: its offerer
is woken with the cancellation of the fiber that closed the channel. -/
theorem Run.closes_for_good_firstOffer :
    ∃ s record ch, Run 8 (init 0) record s ∧ s.world.store.channel? ⟨0⟩ = some ch ∧
      ch.closedBy = none ∧ ch.size = 2 ∧
      s.world.Lined ⟨0⟩ .offerers ⟨1⟩ ⟨2⟩ ∧
      s.world.wakes (World.farewells ch ⟨7⟩) =
        [⟨⟨2⟩, .start .unit true, .interrupt ⟨7⟩⟩] ∧
      s.world.Ends ⟨0⟩ ch ⟨7⟩ ∧
      ∀ {line t fiber}, s.world.Lined ⟨0⟩ line t fiber →
        (∀ registration, registration.line? = some (⟨0⟩, line) →
          ¬ World.WaitedEarly record fiber registration ⟨0⟩) →
        s.world.isOver t = true ∨
          (s.world.Lined ⟨0⟩ line t fiber ∧ ∃ ticket, ⟨line, ticket, t⟩ ∈ ch.entries) := by
  have hrun : Run 8 (init 0) _ _ :=
    .move (.act (Action.newChannel (some 1))) <|
    .move (.start (firstOffer (.bool true)) .unit none) <|
    .move (.pick_first rfl) <|
    .move (.advance_one _ _ _) <|
    .move (.advance_one _ _ _) <|
    .move (.start (firstOffer (.bool false)) .unit none) <|
    .move (.pick_first rfl) <|
    .move (.advance_one _ _ _) .rest
  refine ⟨_, _, _, hrun, rfl, rfl, rfl, ⟨_, _, _, rfl, rfl, rfl, rfl⟩, rfl, ?_⟩
  exact Run.closes_for_good hrun (World.Chronicles.refl _) rfl rfl ⟨7⟩

end Workshop

end Fibers
