import Fibers.Proofs.Delivery
import Fibers.Proofs.Heeding
import Fibers.Proofs.Observers

/-!
# Channels and the fibers that wait at them

A channel keeps three lines, and the world keeps the places at which fibers are parked.  Between
two iterations the two agree: everyone in a line is parked at the channel, and everyone who is
parked at the channel stands in the line.  So whoever is taken out of a line can be woken, and an
element that has been offered is never dropped for want of someone to admit.

A fiber stands in a line before it is parked, and the other way round nobody is left parked whose
entry has gone; what keeps the two together is the canceler with which the fiber is parked.  A fiber
that waits at a channel that has not been made stands nowhere, and programs, which get their
channels by making them, have none of that kind.

## Main definitions

* `Channel.Sound` — what the buffer and the lines of a channel have to do with one another.
* `World.Pops` — who is taken out of a line is woken, and no element is lost with it.
* `World.Lined` — a fiber is parked in a line of a channel.
* `Suspension.Posted`, `World.Posted` — everyone who is parked at a channel is going to leave its line.
* `World.Agrees` — a channel and the fibers that are parked at it.

## Main results

* `Channel.Shows.sound` — a channel that shows a regular queue is sound.
* `World.pops` — whoever is popped is resumed.
* `World.posted_park` — a wait keeps `Posted`.
* `Workshop.Run.keeps_lines` — **channels and parked fibers agree** in a run.
-/

namespace Fibers

/-! ### The buffer and the lines of a channel -/

namespace Channel

variable {α σ : Type} {ch : Channel α σ} {q : Queue α σ}

/-- What the buffer and the lines of a channel have to do with one another. -/
structure Sound (ch : Channel α σ) : Prop where
  /-- A bounded channel holds no more than it may. -/
  bounded : ∀ {n}, ch.capacity = some n → ch.buffer.length ≤ n
  /-- Nobody waits for an element while there is one. -/
  takers : ch.takers ≠ [] → ch.buffer.toList = [] ∧ ch.offerers = []
  /-- Nobody waits for room while there is some. -/
  offerers : ch.offerers ≠ [] → ∃ n, ch.capacity = some n ∧ ch.buffer.length = n
  /-- Nothing and nobody is left after the end. -/
  closed : ch.isClosed = true →
    ch.buffer.toList = [] ∧ ch.takers = [] ∧ ch.offerers = [] ∧ ch.watchers = []

/-- **A channel that shows a regular queue is sound.** -/
theorem Shows.sound (h : ch.Shows q) (hq : q.Regular) : ch.Sound := by
  have hlength : ch.buffer.length = q.stored.length := by
    rw [Fifo.length_eq, h.buffer, List.length_map]
  have hempty : q.items = [] → ch.buffer.toList = [] ∧ ch.offerers = [] := by
    intro hitems
    have hblocked : q.blocked = [] := Queue.blocked_of_items hitems
    have hstored : q.stored = [] := by
      have happend := q.stored_append_blocked
      rw [hitems] at happend
      exact (List.append_eq_nil_iff.mp happend).1
    refine ⟨by rw [h.buffer, hstored]; rfl, ?_⟩
    have hofferers := h.offerers
    rw [hblocked] at hofferers
    exact List.map_eq_nil_iff.mp hofferers
  refine ⟨fun {n} hn => ?_, fun htakers => ?_, fun hofferers => ?_, fun hclosed => ?_⟩
  · rw [hlength, Queue.stored, ← h.capacity, hn]
    exact List.length_take_le _ _
  · refine hempty (hq.idle fun hnil => htakers ?_)
    rw [← h.takers] at hnil
    exact List.map_eq_nil_iff.mp hnil
  · have hblocked : q.blocked ≠ [] := by
      rw [← h.offerers]
      exact fun hnil => hofferers (List.map_eq_nil_iff.mp hnil)
    obtain ⟨n, hcapacity, hstored, -⟩ := Queue.length_stored hblocked
    exact ⟨n, h.capacity.trans hcapacity, hlength.trans hstored⟩
  · have hq' : q.closedBy ≠ none := by
      rw [← h.closedBy]
      exact Option.isSome_iff_ne_none.mp hclosed
    obtain ⟨hitems, htakers, hwatchers⟩ := hq.closed hq'
    obtain ⟨hbuffer, hofferers⟩ := hempty hitems
    rw [← h.takers] at htakers
    rw [← h.watchers] at hwatchers
    exact ⟨hbuffer, List.map_eq_nil_iff.mp htakers, hofferers, List.map_eq_nil_iff.mp hwatchers⟩

theorem mem_entries_taker {ticket : Nat} {t : σ} (h : (ticket, t) ∈ ch.takers) :
    ⟨.takers, ticket, t⟩ ∈ ch.entries :=
  List.mem_append_left _ (List.mem_append_left _ (List.mem_map.mpr ⟨_, h, rfl⟩))

theorem mem_entries_offerer {ticket : Nat} {a : α} {t : σ} (h : (ticket, a, t) ∈ ch.offerers) :
    ⟨.offerers, ticket, t⟩ ∈ ch.entries :=
  List.mem_append_left _ (List.mem_append_right _ (List.mem_map.mpr ⟨_, h, rfl⟩))

/-- An element is handed over to the first taker. -/
theorem takers_of_handedTo {a : α} {t : σ} {ch' : Channel α σ}
    (h : ch.offer? present a = (.handedTo t, ch')) :
    ∃ ticket, ch.takers = (ticket, t) :: ch'.takers := by
  unfold offer? at h
  rw [nextTaker_present] at h
  cases hclosed : ch.closedBy with
  | some source => simp [hclosed] at h
  | none =>
    cases htakers : ch.takers with
    | nil =>
      simp only [hclosed, htakers] at h
      split at h <;> simp at h
    | cons first rest =>
      simp only [hclosed, htakers, Prod.mk.injEq, Offered.handedTo.injEq] at h
      obtain ⟨rfl, rfl⟩ := h
      exact ⟨first.1, rfl⟩

/-- The first offerer is admitted when an element is taken. -/
theorem offerers_of_element {a : α} {admitted : Option σ} {ch' : Channel α σ}
    (h : ch.take? present = (.element a admitted, ch')) :
    (admitted = none → ch.offerers = []) ∧
      ∀ t ∈ admitted, ∃ ticket b, ch.offerers = (ticket, b, t) :: ch'.offerers := by
  cases hclosed : ch.closedBy with
  | some source => simp [take?_closed hclosed] at h
  | none =>
    cases hpop : ch.buffer.pop? with
    | none => simp [take?_empty hclosed hpop] at h
    | some popped =>
      rw [take?_present hclosed hpop] at h
      cases hofferers : ch.offerers with
      | nil =>
        simp only [hofferers, Prod.mk.injEq, Taken.element.injEq] at h
        obtain ⟨⟨-, rfl⟩, -⟩ := h
        exact ⟨fun _ => rfl, fun t ht => by cases ht⟩
      | cons first rest =>
        simp only [hofferers, Prod.mk.injEq, Taken.element.injEq] at h
        obtain ⟨⟨-, rfl⟩, rfl⟩ := h
        refine ⟨nofun, fun t ht => ?_⟩
        obtain rfl := Option.some.inj ht
        exact ⟨first.1, first.2.1, rfl⟩

end Channel

/-! ### Whoever is taken out of a line is woken -/

namespace World

variable {w w' : World} {c : ChannelId} {ch : Channel Value SuspensionId}

/-- What happens to those who are taken out of the lines of a channel. -/
structure Pops (w : World) (c : ChannelId) (ch : Channel Value SuspensionId) : Prop where
  /-- Everyone in a line can be woken. -/
  live : ∀ {e}, e ∈ ch.entries → ∀ outcome, (w.resume e.place outcome).1 = true
  /-- An element that is handed over goes to the first taker, who is woken. -/
  handed : ∀ {v t ch'}, ch.offer? w.isLive v = (.handedTo t, ch') →
    (∃ ticket, ch.takers = (ticket, t) :: ch'.takers) ∧
      ∀ outcome, ((w.setChannel c ch').resume t outcome).1 = true
  /-- When an element is taken all others stay, and the first offerer, who is admitted, is woken. -/
  taken : ∀ {v admitted ch'}, ch.take? w.isLive = (.element v admitted, ch') →
    ch.contents = v :: ch'.contents ∧ (admitted = none → ch.offerers = []) ∧
      ∀ t ∈ admitted, (∃ ticket a, ch.offerers = (ticket, a, t) :: ch'.offerers) ∧
        ∀ outcome, ((w.setChannel c ch').resume t outcome).1 = true

/-- **Whoever is popped is resumed**, and no element is dropped. -/
theorem pops (hw : w.Orderly) (hch : w.store.channel? c = some ch) : w.Pops c ch := by
  have hlive : ∀ e ∈ ch.entries, w.isLive e.place = true := fun e he => hw.isLive_of_entry hch he
  -- putting the channel back wakes nobody
  have hresume : ∀ {t ch'} outcome, w.isLive t = true →
      ((w.setChannel c ch').resume t outcome).1 = true := fun outcome ht => by
    rw [resume_fst]
    exact ht
  refine ⟨fun {e} he outcome => (w.resume_fst _ _).trans (hlive e he), fun {v t ch'} h => ?_,
    fun {v admitted ch'} h => ?_⟩
  · rw [Channel.offer?_of_live hlive] at h
    obtain ⟨ticket, htakers⟩ := Channel.takers_of_handedTo h
    refine ⟨⟨ticket, htakers⟩, fun outcome => hresume outcome ?_⟩
    exact hlive _ (Channel.mem_entries_taker (htakers ▸ List.mem_cons_self))
  · have hcontents := Channel.contents_of_take?
      (fun e he => hlive _ (Channel.mem_entries_offerer (a := e.2.1) he)) h
    rw [Channel.take?_of_live hlive] at h
    obtain ⟨hnobody, hfirst⟩ := Channel.offerers_of_element h
    refine ⟨hcontents, hnobody, fun t ht => ⟨hfirst t ht, fun outcome => hresume outcome ?_⟩⟩
    obtain ⟨ticket, a, hofferers⟩ := hfirst t ht
    exact hlive _ (Channel.mem_entries_offerer (hofferers ▸ List.mem_cons_self))

/-! ### Everyone who is parked at a channel stands in its line -/

/-- The fiber is parked in a line of the channel. -/
def Lined (w : World) (c : ChannelId) (line : Line) (t : SuspensionId) (fiber : FiberId) : Prop :=
  ∃ p run onInterrupt, w.suspension? t = some p ∧ p.fiber = fiber ∧
    p.registration.line? = some (c, line) ∧ p.state = .waiting run onInterrupt

/-- At some moment of the record the fiber began a wait at a channel that had not been made. -/
def WaitedEarly (record : List (FiberId × Event)) (fiber : FiberId) (registration : Registration)
    (c : ChannelId) : Prop :=
  ∃ w run, (fiber, .iterated w run (.eval (.wait registration))) ∈ record ∧
    w.store.channel? c = none

theorem WaitedEarly.mono {record record' : List (FiberId × Event)} {fiber : FiberId}
    {registration : Registration} (h : WaitedEarly record fiber registration c)
    (hsub : record ⊆ record') : WaitedEarly record' fiber registration c := by
  obtain ⟨w, run, hmem, hnone⟩ := h
  exact ⟨w, run, hsub hmem, hnone⟩

end World

/-- The registration of the wait is over, and a fiber that is parked at the place for a channel is
going to leave its line, unless the channel had not been made. -/
structure Suspension.Posted (p : Suspension) (record : List (FiberId × Event)) : Prop where
  begun : p.state ≠ .registering
  leaves : ∀ {run onInterrupt c line}, p.state = .waiting run onInterrupt →
    p.registration.line? = some (c, line) → (∃ ticket, onInterrupt = .leave c line ticket) ∨
      World.WaitedEarly record p.fiber p.registration c

theorem Suspension.Posted.mono {p : Suspension} {record record' : List (FiberId × Event)}
    (h : p.Posted record) (hsub : record ⊆ record') : p.Posted record' where
  begun := h.begun
  leaves hstate hline := (h.leaves hstate hline).imp_right (·.mono hsub)

/-- A place at which nobody is parked and nothing is registered. -/
theorem Suspension.posted_of_over (p : Suspension) (record : List (FiberId × Event)) :
    Suspension.Posted { p with state := .over } record where
  begun := nofun
  leaves := nofun

/-- A place at which a fiber is parked that is going to leave the line in which it stands. -/
theorem Suspension.posted_of_waiting {p : Suspension} {record : List (FiberId × Event)}
    {run : RunState} {onInterrupt : Canceler}
    (h : ∀ {c line}, p.registration.line? = some (c, line) →
      (∃ ticket, onInterrupt = .leave c line ticket) ∨
        World.WaitedEarly record p.fiber p.registration c) :
    Suspension.Posted { p with state := .waiting run onInterrupt } record where
  begun := nofun
  leaves heq hline := by
    obtain ⟨rfl, rfl⟩ := SuspensionState.waiting.inj heq
    exact h hline

namespace World

variable {w w' : World} {c : ChannelId} {ch : Channel Value SuspensionId}
  {record : List (FiberId × Event)}

/-- Everyone who is parked at a channel is going to leave its line. -/
def Posted (w : World) (record : List (FiberId × Event)) : Prop :=
  ∀ ⦃t p⦄, w.suspension? t = some p → p.Posted record

theorem Posted.mono {record' : List (FiberId × Event)} (h : w.Posted record)
    (hsub : record ⊆ record') : w.Posted record' := fun _ _ hp => (h hp).mono hsub

/-- A place stays posted where nobody comes to be parked, whatever becomes of the others. -/
theorem posted_of_same {w₁ : World} (hparks : w₁.ParksNobody w') (hdeeds : w.Chronicles w')
    {t : SuspensionId} (hsame : w₁.suspension? t = w.suspension? t)
    (h : ∀ {p}, w.suspension? t = some p → p.Posted record) {p' : Suspension}
    (hp' : w'.suspension? t = some p') : p'.Posted record := by
  obtain ⟨deeds, hdeeds⟩ := hdeeds
  cases hp : w.suspension? t with
  | none =>
    rw [hparks.no_place (hsame.trans hp)] at hp'
    cases hp'
  | some p =>
    -- it stays what it was made for, and what has begun is not registering again
    obtain ⟨state, hstate⟩ := hdeeds.preserves.place hp
    obtain rfl := Option.some.inj (hp'.symm.trans hstate)
    obtain ⟨p₁, hp₁, hbegun⟩ := hdeeds.begun ⟨p, hp, (h hp).begun⟩
    obtain rfl := Option.some.inj (hp'.symm.trans hp₁)
    refine ⟨hbegun, fun {run onInterrupt c line} hwaits hline => ?_⟩
    obtain ⟨p₂, hp₂, -, -, hwaits₂⟩ := hparks.parked hp' hwaits
    obtain rfl := Option.some.inj (hp.symm.trans (hsame.symm.trans hp₂))
    exact (h hp).leaves hwaits₂ hline

/-- What parks nobody keeps `Posted`. -/
theorem Posted.of_parksNobody (h : w.Posted record) (hparks : w.ParksNobody w')
    (hdeeds : w.Chronicles w') : w'.Posted record :=
  fun _ _ hp' => posted_of_same hparks hdeeds rfl (fun hp => h hp) hp'

/-- One place is changed, and all others are posted. -/
theorem posted_setSuspension {t : SuspensionId} {p : Suspension} {state : SuspensionState}
    (hp : w.suspension? t = some p) (hstate : Suspension.Posted { p with state } record)
    (hothers : ∀ {s q}, s ≠ t → w.suspension? s = some q → q.Posted record) :
    (w.setSuspension t state).Posted record := by
  intro s q hq
  rw [suspension?_setSuspension, hp] at hq
  split at hq
  · obtain rfl := Option.some.inj hq
    exact hstate
  · next hne => exact hothers hne hq

/-- **Registration at a channel leaves a canceler that leaves its line**, if the wait is not over by
then. -/
theorem leave_of_register (hw : w.Orderly) {t : SuspensionId} {registration : Registration}
    {line : Line} (hline : registration.line? = some (c, line))
    (hch : w.store.channel? c = some ch) {p : Suspension} (hp : w.suspension? t = some p)
    {onInterrupt : Canceler} {p' : Suspension}
    (hregister : (w.register t registration).1 = .ok onInterrupt)
    (hp' : (w.register t registration).2.suspension? t = some p') (hstate : p'.state = .registering) :
    ∃ ticket, onInterrupt = .leave c line ticket := by
  -- who is told at once is not registering any more
  have hregisters : ∀ {request : Request Value SuspensionId} {result : Canceler × World},
      Registers w c ch request t result → result.1 = onInterrupt →
        result.2.suspension? t = some p' → ∃ ticket, onInterrupt = .leave c request.line ticket := by
    intro request result hresult honInterrupt hplace
    rcases hresult.waits with ⟨-, htold⟩ | ⟨ticket, hleave, -⟩
    · have hset : (w.setChannel c (ch.serve request).2).suspension? t = some p := hp
      obtain ⟨state, htell, -, hover⟩ := suspension?_tell (ch.serve request).1 hset
      rw [hresult.world, ask, htell] at hplace
      obtain rfl := Option.some.inj hplace
      have hfalse := hover htold
      rw [show state = .registering from hstate] at hfalse
      cases hfalse
    · exact ⟨ticket, honInterrupt.symm.trans hleave⟩
  cases registration with
  | offer d v =>
    obtain ⟨rfl, rfl⟩ := Prod.mk.inj (Option.some.inj hline)
    exact hregisters (registerOffer_registers hw hch v t) (Except.ok.inj hregister) hp'
  | take d =>
    obtain ⟨rfl, rfl⟩ := Prod.mk.inj (Option.some.inj hline)
    exact hregisters (registerTake_registers hw hch t) (Except.ok.inj hregister) hp'
  | awaitClose d =>
    obtain ⟨rfl, rfl⟩ := Prod.mk.inj (Option.some.inj hline)
    exact hregisters (registerClose_registers hch t) (Except.ok.inj hregister) hp'
  | callback _ | sleep _ | awaitExit _ _ | firstDone _ _ | firstFailure _ => cases hline

/-- **A wait keeps `Posted`.** -/
theorem posted_park {fiber : FiberId} {run run' : RunState} {registration : Registration}
    (h : w.Posted record) (hw : w.Orderly) (hin : w.InHand fiber)
    (hmem : (fiber, .iterated w run' (.eval (.wait registration))) ∈ record) :
    (w.park fiber run registration).2.Posted record := by
  have hchannels : ∀ c, (w.newSuspension fiber run.interruptible registration).2.store.channel? c =
      w.store.channel? c := fun _ => rfl
  have hopened : w.Chronicles (w.newSuspension fiber run.interruptible registration).2 :=
    ⟨_, .opened fiber run.interruptible registration hin.absent⟩
  have hplaces := w.suspension?_newSuspension fiber run.interruptible registration
  simp only [park]
  generalize hpair : w.newSuspension fiber run.interruptible registration = new
    at hchannels hopened hplaces
  obtain ⟨t, w₁⟩ := new
  have hregistered := registered_newSuspension hw hin run.interruptible registration hpair
  simp only at hchannels hopened hplaces ⊢
  have hnew : w₁.suspension? t = some ⟨fiber, run.interruptible, registration, .registering⟩ := by
    rw [hplaces, if_pos rfl]
  have hparks : w₁.ParksNobody (w₁.register t registration).2 :=
    .of_influences (w₁.influences_register t registration)
  have hleave := fun {c ch line} =>
    @leave_of_register w₁ c ch (hopened.orderly hw) t registration line
  generalize w₁.register t registration = result at hregistered hparks hleave
  obtain ⟨registered, w₂⟩ := result
  obtain ⟨hdeeds, ⟨state, hplace, -⟩, ⟨r, hr, hs⟩, hfits⟩ := hregistered
  simp only at hparks hdeeds hplace hr hfits hleave ⊢
  have hothers : ∀ {s q}, s ≠ t → w₂.suspension? s = some q → q.Posted record := by
    intro s q hne hq
    exact posted_of_same hparks hdeeds (by rw [hplaces, if_neg hne]) (fun hp => h hp) hq
  have hover : (w₂.setSuspension t .over).Posted record :=
    posted_setSuspension hplace (Suspension.posted_of_over _ record) hothers
  split
  · next onInterrupt hstate =>
    obtain rfl : state = .registering := by
      rw [hplace] at hstate
      exact Option.some.inj hstate
    have hparked : (w₂.setSuspension t (.waiting run onInterrupt)).Posted record := by
      refine posted_setSuspension hplace (Suspension.posted_of_waiting fun {c line} hline => ?_)
        hothers
      cases hch : w.store.channel? c with
      | none => exact Or.inr ⟨w, run', hmem, hch⟩
      | some ch => exact Or.inl (hleave hline ((hchannels c).trans hch) hnew rfl hplace rfl)
    simp only [parkAt]
    split
    · next hstop =>
      have hdeed : Chronicle w₂ [] (w₂.setSuspension t (.waiting run onInterrupt)) :=
        .parked run hplace rfl hr hs (hfits rfl)
      have hset : (w₂.setSuspension t (.waiting run onInterrupt)).suspension? t =
          some ⟨fiber, run.interruptible, registration, .waiting run onInterrupt⟩ := by
        rw [suspension?_setSuspension, if_pos rfl, hplace]
        rfl
      refine hparked.of_parksNobody (.of_influences (influences_interruptAt hset rfl ?_ _))
        (chronicles_interruptAt (hdeed.orderly (hdeeds.orderly hw)) hset rfl _)
      intro run₁ hrun₁
      obtain rfl := Option.some.inj hrun₁
      exact (Bool.and_eq_true_iff.mp hstop).1
    · exact hparked
  · exact hover
  · exact hover
  · exact hover

/-- **An iteration keeps `Posted`.** -/
theorem posted_carryOut {fiber : FiberId} {run : RunState} {step : Step} (h : w.Posted record)
    (hw : w.Orderly) (hsound : w.Sound) (hin : w.InHand fiber)
    (hmem : (fiber, .iterated w run step) ∈ record) :
    (w.carryOut fiber (step.plan (w.pending fiber) fiber run)).2.Posted record := by
  cases hplan : step.plan (w.pending fiber) fiber run with
  | wait run' registration =>
    obtain ⟨rfl, rfl⟩ := Step.eq_of_plan_wait hplan
    rw [carryOut_wait]
    exact posted_park h hw hin hmem
  | _ =>
    refine h.of_parksNobody (parksNobody_carryOut hsound fiber ?_) (chronicles_carryOut hw hsound hin _)
    intros
    exact Plan.noConfusion

/-! ### Channels and parked fibers -/

/-- **A channel and the fibers that are parked at it agree.** -/
structure Agrees (w : World) (record : List (FiberId × Event)) (c : ChannelId)
    (ch : Channel Value SuspensionId) : Prop where
  /-- The buffer and the lines are as they should be. -/
  sound : ch.Sound
  /-- Everyone stands in one line, once. -/
  distinct : (ch.entries.map Entry.place).Nodup
  /-- Whoever stands in a line is parked there. -/
  parked : ∀ {e}, e ∈ ch.entries → ∃ fiber, w.Lined c e.line e.place fiber
  /-- The element kept for an offerer is the one it offers. -/
  elements : ∀ {ticket v t}, (ticket, v, t) ∈ ch.offerers →
    ∃ p, w.suspension? t = some p ∧ p.registration = .offer c v
  /-- Whoever is parked in a line stands in it, if it has never waited there before the channel was
  made. -/
  entered : ∀ {line t fiber}, w.Lined c line t fiber →
    (∀ registration, registration.line? = some (c, line) →
      ¬ WaitedEarly record fiber registration c) →
    ∃ ticket, ⟨line, ticket, t⟩ ∈ ch.entries
  /-- A fiber is parked in one line, at one place. -/
  alone : ∀ {line line' t t' fiber}, w.Lined c line t fiber → w.Lined c line' t' fiber →
    line = line' ∧ t = t'
  /-- Whoever is taken out of a line is woken, and no element is lost with it. -/
  pops : w.Pops c ch

theorem Lined.alone (hw : w.Orderly) {line line' : Line} {t t' : SuspensionId} {fiber : FiberId}
    (h : w.Lined c line t fiber) (h' : w.Lined c line' t' fiber) : line = line' ∧ t = t' := by
  obtain ⟨p, run, onInterrupt, hp, hfiber, hline, hstate⟩ := h
  obtain ⟨p', run', onInterrupt', hp', hfiber', hline', hstate'⟩ := h'
  obtain ⟨r, hr, hs⟩ := hw.recorded hp hstate
  obtain ⟨r', hr', hs'⟩ := hw.recorded hp' hstate'
  rw [hfiber] at hr
  rw [hfiber'] at hr'
  -- both are the place known of the fiber
  obtain rfl := Option.some.inj (hr.symm.trans hr')
  obtain rfl := Option.some.inj (hs.symm.trans hs')
  obtain rfl := Option.some.inj (hp.symm.trans hp')
  exact ⟨(Prod.mk.inj (Option.some.inj (hline.symm.trans hline'))).2, rfl⟩

/-- A channel that has been made since shows a regular queue. -/
theorem sound_of_chronicle {w₀ : World} {deeds : List Deed} (h : Chronicle w₀ deeds w)
    (hw₀ : w₀.Orderly) (hnone : w₀.store.channel? c = none) (hch : w.store.channel? c = some ch) :
    ch.Sound := by
  rcases h.showsAt_new hw₀ hnone with ⟨hnone', -⟩ | ⟨capacity, hq, -⟩
  · rw [hch] at hnone'
    cases hnone'
  · obtain ⟨ch₁, hch₁, hshows⟩ := hq.shows
    obtain rfl := Option.some.inj (hch.symm.trans hch₁)
    exact hshows.sound hq.regular

/-- The element kept for an offerer is the one it offers. -/
theorem registration_of_offerer {w₀ : World} {deeds : List Deed} (h : Chronicle w₀ deeds w)
    (hw₀ : w₀.Orderly) (hnone : w₀.store.channel? c = none) (hch : w.store.channel? c = some ch)
    {ticket : Nat} {v : Value} {t : SuspensionId} (hmem : (ticket, v, t) ∈ ch.offerers) :
    ∃ p, w.suspension? t = some p ∧ p.registration = .offer c v := by
  rcases h.showsAt_new hw₀ hnone with ⟨hnone', -⟩ | ⟨capacity, hq, -⟩
  · rw [hch] at hnone'
    cases hnone'
  · obtain ⟨ch₁, hch₁, hshows⟩ := hq.shows
    obtain rfl := Option.some.inj (hch.symm.trans hch₁)
    have hblocked : (t, v) ∈ (Queue.after { capacity } (requestsAt c deeds)).blocked := by
      rw [← hshows.offerers]
      exact List.mem_map.mpr ⟨_, hmem, rfl⟩
    have hoffered := (Queue.items_after_subset _ _ (Queue.mem_items_of_blocked hblocked)).resolve_left
      (by simp)
    obtain ⟨r, hr, hsome⟩ := List.mem_filterMap.mp hoffered
    obtain rfl : r = .offer t v := by
      cases r <;> simp [Request.offered?] at hsome
      rw [hsome.1, hsome.2]
    obtain ⟨-, p, hp, hregistration⟩ := h.inLine_of_asker hw₀ hr rfl
    exact ⟨p, hp, (Option.some.inj hregistration).symm⟩

/-- **Between two iterations a channel and the fibers that are parked at it agree.** -/
theorem Posted.agrees {w₀ : World} {deeds : List Deed} (h : w.Posted record)
    (hdeeds : Chronicle w₀ deeds w) (hw₀ : w₀.Orderly)
    (hnone : w₀.store.channel? c = none) (hch : w.store.channel? c = some ch) :
    w.Agrees record c ch := by
  have hw := hdeeds.orderly hw₀
  refine ⟨sound_of_chronicle hdeeds hw₀ hnone hch, (hw.channels hch).places, fun {e} he => ?_,
    registration_of_offerer hdeeds hw₀ hnone hch, fun {line t fiber} hlined hmade => ?_,
    fun hone hother => hone.alone hw hother, pops hw hch⟩
  · obtain ⟨p, hp, hline, hstate | ⟨run, hstate⟩⟩ := hw.lines hch he
    · exact absurd hstate (h hp).begun
    · exact ⟨p.fiber, p, run, _, hp, rfl, hline, hstate⟩
  · obtain ⟨p, run, onInterrupt, hp, rfl, hline, hstate⟩ := hlined
    rcases (h hp).leaves hstate hline with ⟨ticket, rfl⟩ | hearly
    · obtain ⟨ch', hch', hmem⟩ := hw.leaves hp hstate
      obtain rfl := Option.some.inj (hch.symm.trans hch')
      exact ⟨ticket, hmem⟩
    · exact absurd hearly (hmade _ hline)

end World

namespace Workshop

/-- **Every move keeps `Posted`.** -/
theorem Move.posted {budget : Nat} {s s' : Workshop} {events record : List (FiberId × Event)}
    (h : Move budget s events s') (hvalid : s.Valid) (hw : s.world.Orderly)
    (hposted : s.world.Posted record) : s'.world.Posted (record ++ events) := by
  have hold := hposted.mono (List.subset_append_left record events)
  have hdeeds := h.chronicles hvalid hw
  cases h with
  | pick _ _ => exact hold.of_parksNobody (.of_suspensions rfl) hdeeds
  | @advance w before after slice m hm =>
    subst hm
    rcases Machine.world_advance budget w slice with heq | ⟨hmem, heq⟩ <;>
      simp only [heq] at hdeeds ⊢
    · exact hold.of_parksNobody (.of_suspensions rfl) hdeeds
    · obtain ⟨a, ha⟩ := hvalid.stands slice.fiber
      exact World.posted_carryOut hold hw hvalid.sound (stands_of_running ha).2.1
        (List.mem_append_right _ (List.mem_map.mpr ⟨_, hmem, rfl⟩))
  | interrupt target source =>
    exact hold.of_parksNobody (.of_influences (World.influences_interrupt hvalid.sound target source))
      hdeeds
  | act a => exact hold.of_parksNobody (.of_influences (a.influences_run _)) hdeeds
  | ring hm =>
    obtain ⟨world, hworld, rfl⟩ := Machine.of_ring hm
    exact hold.of_parksNobody (.of_influences hworld) hdeeds
  | start effect environment report => exact hold.of_parksNobody (.of_suspensions rfl) hdeeds

theorem Run.posted {budget : Nat} {s s' : Workshop} {record past : List (FiberId × Event)}
    (h : Run budget s record s') (hvalid : s.Valid) (hw : s.world.Orderly)
    (hposted : s.world.Posted past) : s'.world.Posted (past ++ record) := by
  induction h generalizing past with
  | rest => rwa [List.append_nil]
  | move hmove _ ih =>
    rw [← List.append_assoc]
    exact ih (hmove.valid hvalid) ((hmove.chronicles hvalid hw).orderly hw)
      (hmove.posted hvalid hw hposted)

theorem posted_init (minted : Nat) : (World.init minted).Posted [] := by
  intro t p hp
  simp [World.init, World.suspension?, Numbered.get?] at hp

/-- **Channels and parked fibers agree.**  Between two iterations a channel holds no more than it
may, nobody waits at it in vain, nothing is left of one that has been closed, and those who stand in
its lines are those who are parked there.  At every moment, between iterations or not, whoever is
taken out of a line is woken, and no element is dropped. -/
theorem Run.keeps_lines {budget minted : Nat} {s : Workshop} {record : List (FiberId × Event)}
    (h : Run budget (init minted) record s) :
    (∀ {c ch}, s.world.store.channel? c = some ch → s.world.Agrees record c ch) ∧
      ∀ {w c ch}, s.world.Chronicles w → w.store.channel? c = some ch → ch.Sound ∧ w.Pops c ch := by
  have hinit := World.orderly_init minted
  have hposted := h.posted (valid_init minted) hinit (posted_init minted)
  obtain ⟨deeds, hdeeds⟩ := h.exists_chronicle (valid_init minted) hinit
  have hnone : ∀ c, (World.init minted).store.channel? c = none := by
    intro c
    simp [World.init, Store.init, Store.channel?, Numbered.get?]
  refine ⟨fun {c ch} hch => hposted.agrees hdeeds hinit (hnone c) hch,
    fun {w c ch} hlater hch => ?_⟩
  obtain ⟨deeds', hdeeds'⟩ := hlater
  have hall := hdeeds.trans hdeeds'
  exact ⟨World.sound_of_chronicle hall hinit (hnone c) hch, World.pops (hall.orderly hinit) hch⟩

/-- Of two elements offered to a channel with room for one, the second one is kept for the fiber
that is parked. -/
theorem Run.keeps_lines_firstOffer :
    ∃ s record, Run 8 (init 0) record s ∧
      s.world.Lined ⟨0⟩ .offerers ⟨1⟩ ⟨2⟩ ∧
      (s.world.store.channel? ⟨0⟩).map Channel.offerers = some [(1, .bool false, ⟨1⟩)] ∧
      (∀ {c ch}, s.world.store.channel? c = some ch → s.world.Agrees record c ch) ∧
      ∀ {w c ch}, s.world.Chronicles w → w.store.channel? c = some ch →
        ch.Sound ∧ w.Pops c ch := by
  have hrun : Run 8 (init 0) _ _ :=
    .move (.act (Action.newChannel (some 1))) <|
    .move (.start (firstOffer (.bool true)) .unit none) <|
    .move (.pick_first rfl) <|
    .move (.advance_one _ _ _) <|
    .move (.advance_one _ _ _) <|
    .move (.start (firstOffer (.bool false)) .unit none) <|
    .move (.pick_first rfl) <|
    .move (.advance_one _ _ _) .rest
  exact ⟨_, _, hrun, ⟨_, _, _, rfl, rfl, rfl, rfl⟩, rfl, Run.keeps_lines hrun⟩

end Workshop

end Fibers
