import Fibers.Proofs.Handover
import Fibers.Proofs.Service

/-!
# What happens at places and channels

A place at which a fiber waits is made for one wait, and a channel is asked for one thing after
the other.  A chronicle tells what has happened there: which waits have been completed or
interrupted, what has been asked of the channels and what they have told, and which fibers have
finished.  Everything else that happens leaves no trace in it.

In an orderly world, whoever stands in a line of a channel waits for that channel, and is going to
leave that line if it is interrupted; nobody else completes its wait.

## Main definitions

* `Deed` — something that happens.
* `Chronicle` — how a world becomes another one, with the deeds.
* `World.Orderly` — lines and places fit together.

## Main results

* `Chronicle.orderly` — **whatever happens leaves an orderly world.**
-/

namespace Fibers

/-! ### Deeds -/

/-- The channel at which a wait ends, if it does at one, and the line for it. -/
def Registration.line? : Registration → Option (ChannelId × Line)
  | .offer c _ => some (c, .offerers)
  | .take c => some (c, .takers)
  | .awaitClose c => some (c, .watchers)
  | .callback _ => none
  | .sleep _ => none
  | .awaitExit _ _ => none
  | .firstDone _ _ => none
  | .firstFailure _ => none

/-- The end of a wait at which something is told. -/
def Answer.outcome : Answer Value → Outcome
  | .element v => .done v
  | .done => .done .unit
  | .closed source => .interrupt source

/-- The wait that asks something of a channel. -/
def Request.registration? (c : ChannelId) : Request Value SuspensionId → Option Registration
  | .offer _ v => some (.offer c v)
  | .take _ => some (.take c)
  | .watch _ => some (.awaitClose c)
  | .poll => none
  | .leave _ _ _ => none
  | .close _ => none

/-- The waiting place that is told when a fiber finishes. -/
def Observer.waiter? : Observer → Option SuspensionId
  | .report _ => none
  | .exitTo waiter _ => some waiter
  | .firstDone waiter _ => some waiter
  | .firstFailure waiter _ _ => some waiter

/-- Something that happens at a place, at a channel or to a fiber. -/
inductive Deed where
  /-- A wait is completed. -/
  | completed (s : SuspensionId) (outcome : Outcome)
  /-- A wait is interrupted on behalf of a fiber. -/
  | interrupted (s : SuspensionId) (source : FiberId)
  /-- What is to be done if the wait at a place is interrupted is done. -/
  | cancelled (s : SuspensionId)
  /-- A channel is made. -/
  | made (c : ChannelId)
  /-- Something is asked of a channel. -/
  | asked (c : ChannelId) (request : Request Value SuspensionId)
  /-- A wait at a channel is completed. -/
  | answered (c : ChannelId) (s : SuspensionId) (answer : Answer Value)
  /-- A fiber finishes. -/
  | finished (fiber : FiberId) (outcome : Outcome)

namespace World

/-! ### Channels -/

/-- Changes a channel. -/
def setChannel (w : World) (c : ChannelId) (ch : Channel Value SuspensionId) : World :=
  { w with store := w.store.setChannel c ch }

/-- Tells those who wait. -/
def tell (w : World) (told : List (SuspensionId × Answer Value)) : World :=
  told.foldl (fun w t => (w.resume t.1 t.2.outcome).2) w

/-- Asks something of a channel. -/
def ask (w : World) (c : ChannelId) (ch : Channel Value SuspensionId)
    (request : Request Value SuspensionId) : World :=
  (w.setChannel c (ch.serve request).2).tell (ch.serve request).1

/-! ### Orderly worlds -/

/-- A wait that does not end at a channel. -/
def Plain (w : World) (s : SuspensionId) : Prop :=
  ∃ p, w.suspension? s = some p ∧ p.registration.line? = none

/-- A place that an alarm or the end of a fiber is going to wake. -/
inductive Files (w : World) (s : SuspensionId) : Prop where
  | alarm {a : Alarm SuspensionId} : a ∈ w.store.alarms.pending → a.payload = s → Files w s
  | observer {fiber : FiberId} {r : FiberRecord} {o : Observer} :
      w.store.fiber? fiber = some r → o ∈ r.observers → o.waiter? = some s → Files w s

/-- No fiber is parked at a place of the given one. -/
def Absent (w : World) (fiber : FiberId) : Prop :=
  ∀ {s p}, w.suspension? s = some p → p.fiber = fiber → p.state.run? = none

/-- Lines and places fit together. -/
structure Orderly (w : World) : Prop where
  /-- Everyone who stands in a line waits for the channel, and is going to leave the line if it
  is interrupted. -/
  lines : ∀ {c ch e}, w.store.channel? c = some ch → e ∈ ch.entries →
    ∃ p, w.suspension? e.place = some p ∧ p.registration.line? = some (c, e.line) ∧
      (p.state = .registering ∨ ∃ run, p.state = .waiting run (.leave c e.line e.ticket))
  /-- Who is going to leave a line stands in it. -/
  leaves : ∀ {s p run c line ticket}, w.suspension? s = some p →
    p.state = .waiting run (.leave c line ticket) →
      ∃ ch, w.store.channel? c = some ch ∧ ⟨line, ticket, s⟩ ∈ ch.entries
  /-- Everyone stands in a line once. -/
  channels : ∀ {c ch}, w.store.channel? c = some ch → ch.Orderly
  /-- Alarms and fibers that finish wake only those who wait for them. -/
  filed : ∀ {s}, w.Files s → w.Plain s
  /-- The place known of a fiber is its own. -/
  owner : ∀ {fiber r s}, w.store.fiber? fiber = some r → r.suspension = some s →
    ∃ p, w.suspension? s = some p ∧ p.fiber = fiber
  /-- A fiber is parked only at the place known of it. -/
  recorded : ∀ {s p run onInterrupt}, w.suspension? s = some p →
    p.state = .waiting run onInterrupt →
      ∃ r, w.store.fiber? p.fiber = some r ∧ r.suspension = some s

/-- Something can be asked of a channel: whoever asks is about to wait for the answer. -/
structure Asks (w : World) (c : ChannelId) (ch : Channel Value SuspensionId)
    (request : Request Value SuspensionId) : Prop where
  stays : ∀ line ticket s, request ≠ .leave line ticket s
  asker : ∀ {s}, request.asker? = some s → ∃ p, w.suspension? s = some p ∧
    p.state = .registering ∧ request.registration? c = some p.registration
  fresh : ∀ {s}, request.asker? = some s → s ∉ ch.entries.map Entry.place

/-- What is to be done if a wait is interrupted fits the line in which the place stands. -/
structure Fits (w : World) (s : SuspensionId) (onInterrupt : Canceler) : Prop where
  stands : ∀ {c ch e}, w.store.channel? c = some ch → e ∈ ch.entries → e.place = s →
    onInterrupt = .leave c e.line e.ticket
  leaves : ∀ {c line ticket}, onInterrupt = .leave c line ticket →
    ∃ ch, w.store.channel? c = some ch ∧ ⟨line, ticket, s⟩ ∈ ch.entries

/-- Nothing happens at places and channels, and no fiber finishes. -/
structure Idles (w w' : World) : Prop where
  suspensions : w'.suspensions = w.suspensions
  channels : w'.store.channels = w.store.channels
  old : ∀ {fiber r}, w.store.fiber? fiber = some r →
    ∃ r', w'.store.fiber? fiber = some r' ∧ r'.finished = r.finished ∧ r'.suspension = r.suspension
  new : ∀ {fiber r'}, w.store.fiber? fiber = none → w'.store.fiber? fiber = some r' →
    r'.finished = false ∧ r'.suspension = none
  files : ∀ {s}, w'.Files s → w.Files s ∨ w.Plain s

end World

/-- What is to be done on interruption is not to leave a line. -/
def Canceler.Stays (onInterrupt : Canceler) : Prop :=
  ∀ c line ticket, onInterrupt ≠ .leave c line ticket

/-- `Chronicle w deeds w'` says that the world `w` becomes `w'`; `deeds` are what happens at
places and channels, and the fibers that finish. -/
inductive Chronicle : World → List Deed → World → Prop where
  /-- Nothing of this happens. -/
  | idle {w w' : World} : w.Idles w' → Chronicle w [] w'
  /-- A place is made for a fiber to wait at. -/
  | opened {w : World} (fiber : FiberId) (allowed : Bool) (registration : Registration) :
      w.Absent fiber → Chronicle w [] (w.newSuspension fiber allowed registration).2
  /-- A fiber is parked at its place. -/
  | parked {w : World} {s : SuspensionId} {place : Suspension} {r : FiberRecord} (run : RunState)
      {onInterrupt : Canceler} :
      w.suspension? s = some place → place.state = .registering →
      w.store.fiber? place.fiber = some r → r.suspension = some s → w.Fits s onInterrupt →
      Chronicle w [] (w.setSuspension s (.waiting run onInterrupt))
  /-- A place at which no fiber is parked is given up. -/
  | vacated {w : World} {s : SuspensionId} {place : Suspension} :
      w.suspension? s = some place → place.state.run? = none →
      (place.state = .registering → place.registration.line? = none) →
      Chronicle w [] (w.setSuspension s .over)
  /-- A wait that does not end at a channel is completed. -/
  | completed {w : World} {s : SuspensionId} (outcome : Outcome) :
      w.Plain s → w.isLive s = true →
      Chronicle w [.completed s outcome] (w.resume s outcome).2
  /-- A wait is interrupted, and what is to be done then is done. -/
  | interrupted {w : World} {s : SuspensionId} {place : Suspension} {run : RunState}
      {onInterrupt : Canceler} {deeds : List Deed} (source : FiberId) :
      w.suspension? s = some place → place.state = .waiting run onInterrupt → onInterrupt.Stays →
      Chronicle (w.setSuspension s .over) deeds ((w.setSuspension s .over).cancel onInterrupt) →
      Chronicle w (.interrupted s source :: .cancelled s :: deeds)
        (((w.setSuspension s .over).cancel onInterrupt).schedule place.fiber run
          (.interrupt source))
  /-- A wait at a channel is interrupted, and the line is left. -/
  | left {w : World} {s : SuspensionId} {place : Suspension} {run : RunState} {c : ChannelId}
      {ch : Channel Value SuspensionId} {line : Line} {ticket : Nat} (source : FiberId) :
      w.suspension? s = some place → place.state = .waiting run (.leave c line ticket) →
      w.store.channel? c = some ch →
      Chronicle w [.interrupted s source, .cancelled s, .asked c (.leave line ticket s)]
        (((w.setSuspension s .over).setChannel c (ch.leave line ticket)).schedule place.fiber run
          (.interrupt source))
  /-- A channel is made. -/
  | made {w : World} {capacity : Option Nat} : capacity ≠ some 0 →
      Chronicle w [.made ⟨w.store.channels.next⟩]
        { w with store := { w.store with channels := w.store.channels.push { capacity } } }
  /-- Something is asked of a channel, and the answers are told. -/
  | asked {w : World} {c : ChannelId} {ch : Channel Value SuspensionId}
      {request : Request Value SuspensionId} :
      w.store.channel? c = some ch → w.Asks c ch request →
      Chronicle w (.asked c request :: (ch.serve request).1.map fun t => .answered c t.1 t.2)
        (w.ask c ch request)
  /-- A fiber finishes. -/
  | finished {w : World} {fiber : FiberId} (outcome : Outcome) :
      w.phase fiber = some false → w.Absent fiber →
      Chronicle w [.finished fiber outcome] (w.finish fiber outcome)
  /-- One thing after the other. -/
  | trans {w w' w'' : World} {deeds deeds' : List Deed} :
      Chronicle w deeds w' → Chronicle w' deeds' w'' → Chronicle w (deeds ++ deeds') w''

/-- The state of a place after an outcome for it. -/
def SuspensionState.completed (outcome : Outcome) : SuspensionState → SuspensionState
  | .registering => .early outcome
  | .waiting _ _ => .over
  | .early o => .early o
  | .over => .over

/-- Whether an outcome comes too late. -/
def SuspensionState.isOver : SuspensionState → Bool
  | .registering => false
  | .waiting _ _ => false
  | .early _ => true
  | .over => true

theorem SuspensionState.isOver_completed (outcome : Outcome) (state : SuspensionState) :
    (state.completed outcome).isOver = true := by
  cases state <;> rfl

theorem SuspensionState.run?_of_isOver {state : SuspensionState} (h : state.isOver = true) :
    state.run? = none := by
  cases state <;> first | rfl | cases h

theorem Request.line?_of_registration {c : ChannelId}
    {request : Request Value SuspensionId} {registration : Registration}
    (h : request.registration? c = some registration) :
    registration.line? = some (c, request.line) := by
  cases request with
  | offer _ _ | take _ | watch _ =>
    obtain rfl := Option.some.inj h
    rfl
  | poll | leave _ _ _ | close _ => cases h

/-! ### What is found after a change -/

namespace World

variable {w w' : World}

theorem suspension?_resume (w : World) (s t : SuspensionId) (outcome : Outcome) :
    (w.resume s outcome).2.suspension? t =
      if t = s then (w.suspension? s).map fun p => { p with state := p.state.completed outcome }
      else w.suspension? t := by
  have hset : ∀ state : SuspensionState, (w.setSuspension s state).suspension? t =
      if t = s then (w.suspension? s).map fun p => { p with state } else w.suspension? t :=
    w.suspension?_setSuspension s t
  unfold resume
  cases hs : w.suspension? s with
  | none =>
    by_cases heq : t = s
    · rw [if_pos heq, heq, hs, Option.map_none]
    · rw [if_neg heq]
  | some place =>
    rw [hs] at hset
    -- a place that is done with stays as it is
    have hsame : place.state.completed outcome = place.state → w.suspension? t =
        if t = s then (some place).map fun p => { p with state := p.state.completed outcome }
        else w.suspension? t := by
      intro hstate
      by_cases heq : t = s
      · rw [if_pos heq, heq, hs, Option.map_some, hstate]
      · rw [if_neg heq]
    simp only
    cases hstate : place.state with
    | registering =>
      simp only [hset, Option.map_some, hstate]
      rfl
    | waiting run onInterrupt =>
      have hover := hset .over
      simp only [Option.map_some, hstate] at hover ⊢
      exact hover
    | _ => exact hsame (by rw [hstate]; rfl)

@[simp] theorem store_tell (w : World) (told : List (SuspensionId × Answer Value)) :
    (w.tell told).store = w.store := by
  unfold tell
  induction told generalizing w with
  | nil => rfl
  | cons t told ih => rw [List.foldl_cons, ih, store_resume]

/-- A place at which nothing is told stays as it is. -/
theorem suspension?_tell_other {told : List (SuspensionId × Answer Value)} {s : SuspensionId}
    (h : s ∉ told.map Prod.fst) : (w.tell told).suspension? s = w.suspension? s := by
  unfold tell
  induction told generalizing w with
  | nil => rfl
  | cons t told ih =>
    rw [List.map_cons, List.mem_cons, not_or] at h
    rw [List.foldl_cons, ih h.2, suspension?_resume, if_neg h.1]

/-- A place stays the place of its fiber and of its wait, and a wait is over when something has
been told. -/
theorem suspension?_tell (told : List (SuspensionId × Answer Value)) {s : SuspensionId}
    {p : Suspension} (hp : w.suspension? s = some p) :
    ∃ state, (w.tell told).suspension? s = some { p with state } ∧
      (s ∉ told.map Prod.fst → state = p.state) ∧
      (s ∈ told.map Prod.fst → state.isOver = true) := by
  unfold tell
  induction told generalizing w p with
  | nil => exact ⟨p.state, hp, fun _ => rfl, fun hmem => by cases hmem⟩
  | cons t told ih =>
    rw [List.foldl_cons]
    by_cases heq : s = t.1
    · have hp' : (w.resume t.1 t.2.outcome).2.suspension? s =
          some { p with state := p.state.completed t.2.outcome } := by
        rw [suspension?_resume, if_pos heq, ← heq, hp, Option.map_some]
      obtain ⟨state, hstate, hsame, hover⟩ := ih hp'
      refine ⟨state, hstate, fun hnot => ?_, fun _ => ?_⟩
      · exact absurd (List.mem_map_of_mem (f := Prod.fst) List.mem_cons_self) (heq ▸ hnot)
      · by_cases hmem : s ∈ told.map Prod.fst
        · exact hover hmem
        · rw [hsame hmem]
          exact SuspensionState.isOver_completed _ _
    · have hp' : (w.resume t.1 t.2.outcome).2.suspension? s = some p := by
        rw [suspension?_resume, if_neg heq, hp]
      obtain ⟨state, hstate, hsame, hover⟩ := ih hp'
      refine ⟨state, hstate, fun hnot => hsame fun hmem => hnot (List.mem_cons_of_mem _ hmem), ?_⟩
      intro hmem
      exact hover ((List.mem_cons.mp hmem).resolve_left heq)

theorem channel?_setChannel {c other : ChannelId} {ch ch' : Channel Value SuspensionId}
    (h : w.store.channel? c = some ch) :
    (w.setChannel c ch').store.channel? other =
      if other = c then some ch' else w.store.channel? other := by
  have hindex : other.index = c.index ↔ other = c := by
    cases other
    cases c
    simp
  simp only [setChannel, Store.setChannel, Store.channel?] at h ⊢
  rw [Numbered.get?_modify]
  simp only [hindex]
  split
  · next heq => rw [heq, h]; rfl
  · rfl

theorem channel?_ask {c other : ChannelId} {ch : Channel Value SuspensionId}
    {request : Request Value SuspensionId} (h : w.store.channel? c = some ch) :
    (w.ask c ch request).store.channel? other =
      if other = c then some (ch.serve request).2 else w.store.channel? other := by
  rw [ask, store_tell, channel?_setChannel h]

theorem channel?_push (w : World) (ch : Channel Value SuspensionId) (other : ChannelId) :
    Store.channel? { w.store with channels := w.store.channels.push ch } other =
      if other = ⟨w.store.channels.next⟩ then some ch else w.store.channel? other := by
  have hindex : other.index = w.store.channels.next ↔ other = ⟨w.store.channels.next⟩ := by
    cases other
    simp
  simp only [Store.channel?, Numbered.get?_push, hindex]

/-! ### What changes keep the world orderly -/

theorem Files.of_store {s : SuspensionId} (hs : w'.Files s)
    (h : w'.store.fibers = w.store.fibers) (ha : w'.store.alarms = w.store.alarms) : w.Files s := by
  cases hs with
  | alarm hmem heq => exact .alarm (ha ▸ hmem) heq
  | @observer fiber r o hr ho hwaiter =>
    have hr' : w.store.fiber? fiber = some r := by
      rw [Store.fiber?, ← h]
      exact hr
    exact .observer hr' ho hwaiter

theorem Plain.of_suspensions (h : w'.suspensions = w.suspensions) {s : SuspensionId}
    (hs : w.Plain s) : w'.Plain s := by
  obtain ⟨p, hp, hline⟩ := hs
  exact ⟨p, by rw [suspension?, h]; exact hp, hline⟩

/-- Every place stays that of its fiber and of its wait. -/
structure Preserves (w w' : World) : Prop where
  place : ∀ {s p}, w.suspension? s = some p → ∃ state, w'.suspension? s = some { p with state }

namespace Preserves

theorem of_suspensions (h : w'.suspensions = w.suspensions) : w.Preserves w' := by
  refine ⟨fun {s p} hp => ⟨p.state, ?_⟩⟩
  rw [suspension?, h]
  exact hp

theorem trans {w'' : World} (h : w.Preserves w') (h' : w'.Preserves w'') : w.Preserves w'' := by
  refine ⟨fun {s p} hp => ?_⟩
  obtain ⟨state, hp'⟩ := h.place hp
  obtain ⟨state', hp''⟩ := h'.place hp'
  exact ⟨state', hp''⟩

end Preserves

theorem preserves_setSuspension (w : World) (s : SuspensionId) (state : SuspensionState) :
    w.Preserves (w.setSuspension s state) := by
  refine ⟨fun {t p} hp => ?_⟩
  rw [suspension?_setSuspension]
  split
  · next heq => exact ⟨state, by rw [← heq, hp, Option.map_some]⟩
  · exact ⟨p.state, hp⟩

theorem preserves_resume (w : World) (s : SuspensionId) (outcome : Outcome) :
    w.Preserves (w.resume s outcome).2 := by
  refine ⟨fun {t p} hp => ?_⟩
  rw [suspension?_resume]
  split
  · next heq => exact ⟨p.state.completed outcome, by rw [← heq, hp, Option.map_some]⟩
  · exact ⟨p.state, hp⟩

theorem preserves_tell (w : World) (told : List (SuspensionId × Answer Value)) :
    w.Preserves (w.tell told) := by
  refine ⟨fun {s p} hp => ?_⟩
  obtain ⟨state, hp', -⟩ := suspension?_tell told hp
  exact ⟨state, hp'⟩

theorem preserves_ask (w : World) (c : ChannelId) (ch : Channel Value SuspensionId)
    (request : Request Value SuspensionId) : w.Preserves (w.ask c ch request) := by
  have hset : w.Preserves (w.setChannel c (ch.serve request).2) := .of_suspensions rfl
  exact hset.trans (preserves_tell _ _)

theorem Plain.preserved {s : SuspensionId} (hs : w.Plain s) (h : w.Preserves w') : w'.Plain s := by
  obtain ⟨p, hp, hline⟩ := hs
  obtain ⟨state, hp'⟩ := h.place hp
  exact ⟨_, hp', hline⟩

theorem Orderly.owner_of_preserves (h : w.Orderly) (hw : w.Preserves w')
    {fiber : FiberId} {r : FiberRecord} {s : SuspensionId} (hr : w.store.fiber? fiber = some r)
    (hs : r.suspension = some s) : ∃ p, w'.suspension? s = some p ∧ p.fiber = fiber := by
  obtain ⟨p, hp, hfiber⟩ := h.owner hr hs
  obtain ⟨state, hp'⟩ := hw.place hp
  exact ⟨_, hp', hfiber⟩

theorem Orderly.idle (h : w.Orderly) (hidle : w.Idles w') : w'.Orderly := by
  have hsusp : ∀ s, w'.suspension? s = w.suspension? s := fun s => by
    rw [suspension?, hidle.suspensions, suspension?]
  have hchannel : ∀ c, w'.store.channel? c = w.store.channel? c := fun c => by
    rw [Store.channel?, hidle.channels, Store.channel?]
  refine ⟨?_, ?_, ?_, ?_, ?_, ?_⟩
  · intro c ch e hch he
    rw [hsusp]
    exact h.lines ((hchannel c).symm.trans hch) he
  · intro s p run c line ticket hp hstate
    rw [hchannel]
    exact h.leaves ((hsusp s).symm.trans hp) hstate
  · intro c ch hch
    exact h.channels ((hchannel c).symm.trans hch)
  · intro s hs
    rcases hidle.files hs with hold | hplain
    · exact (h.filed hold).of_suspensions hidle.suspensions
    · exact hplain.of_suspensions hidle.suspensions
  · intro fiber r' s hr' hs
    rw [hsusp]
    cases hr : w.store.fiber? fiber with
    | none =>
      rw [(hidle.new hr hr').2] at hs
      cases hs
    | some r =>
      obtain ⟨r₁, hr₁, -, hsame⟩ := hidle.old hr
      obtain rfl := Option.some.inj (hr₁.symm.trans hr')
      exact h.owner hr (hsame ▸ hs)
  · intro s p run onInterrupt hp hstate
    obtain ⟨r, hr, hs⟩ := h.recorded ((hsusp s).symm.trans hp) hstate
    obtain ⟨r', hr', -, hsame⟩ := hidle.old hr
    exact ⟨r', hr', hsame.trans hs⟩

/-- The state of a place changes, in a way that fits the lines and the record of its fiber. -/
theorem Orderly.setSuspension (h : w.Orderly) {s : SuspensionId} {place : Suspension}
    (hplace : w.suspension? s = some place) {state : SuspensionState}
    (hlines : ∀ {c ch e}, w.store.channel? c = some ch → e ∈ ch.entries → e.place = s →
      ∃ run, state = .waiting run (.leave c e.line e.ticket))
    (hleaves : ∀ {run c line ticket}, state = .waiting run (.leave c line ticket) →
      ∃ ch, w.store.channel? c = some ch ∧ ⟨line, ticket, s⟩ ∈ ch.entries)
    (hrecorded : ∀ {run onInterrupt}, state = .waiting run onInterrupt →
      ∃ r, w.store.fiber? place.fiber = some r ∧ r.suspension = some s) :
    (w.setSuspension s state).Orderly := by
  have hself : (w.setSuspension s state).suspension? s = some { place with state } := by
    rw [suspension?_setSuspension, if_pos rfl, hplace, Option.map_some]
  have hother : ∀ {t}, t ≠ s → (w.setSuspension s state).suspension? t = w.suspension? t :=
    fun hne => by rw [suspension?_setSuspension, if_neg hne]
  have hpreserves := w.preserves_setSuspension s state
  refine ⟨?_, ?_, h.channels, ?_, ?_, ?_⟩
  · intro c ch e hch he
    obtain ⟨p, hp, hline, hstate⟩ := h.lines hch he
    by_cases heq : e.place = s
    · rw [heq] at hp ⊢
      obtain rfl := Option.some.inj (hplace.symm.trans hp)
      exact ⟨_, hself, hline, Or.inr (hlines hch he heq)⟩
    · exact ⟨p, (hother heq).trans hp, hline, hstate⟩
  · intro t p run c line ticket hp hstate
    by_cases heq : t = s
    · subst heq
      obtain rfl := Option.some.inj (hself.symm.trans hp)
      exact hleaves hstate
    · exact h.leaves ((hother heq).symm.trans hp) hstate
  · intro t ht
    exact (h.filed (ht.of_store rfl rfl)).preserved hpreserves
  · intro fiber r t hr ht
    exact h.owner_of_preserves hpreserves hr ht
  · intro t p run onInterrupt hp hstate
    by_cases heq : t = s
    · subst heq
      obtain rfl := Option.some.inj (hself.symm.trans hp)
      exact hrecorded hstate
    · exact h.recorded ((hother heq).symm.trans hp) hstate

/-- A place that stands in no line comes to hold nobody. -/
theorem Orderly.vacate (h : w.Orderly) {s : SuspensionId} {place : Suspension}
    (hplace : w.suspension? s = some place) {state : SuspensionState} (hstate : state.run? = none)
    (hout : ∀ {c ch e}, w.store.channel? c = some ch → e ∈ ch.entries → e.place ≠ s) :
    (w.setSuspension s state).Orderly := by
  have hnot : ∀ {run onInterrupt}, state ≠ .waiting run onInterrupt := by
    rintro run onInterrupt rfl
    cases hstate
  exact h.setSuspension hplace (fun hch he heq => absurd heq (hout hch he))
    (fun heq => absurd heq hnot) (fun heq => absurd heq hnot)

/-- A place that does not wait for a channel stands in no line. -/
theorem Orderly.out_of_plain (h : w.Orderly) {s : SuspensionId} (hs : w.Plain s) {c : ChannelId}
    {ch : Channel Value SuspensionId} {e : Entry SuspensionId}
    (hch : w.store.channel? c = some ch) (he : e ∈ ch.entries) : e.place ≠ s := by
  rintro rfl
  obtain ⟨p, hp, hline⟩ := hs
  obtain ⟨p', hp', hline', -⟩ := h.lines hch he
  obtain rfl := Option.some.inj (hp.symm.trans hp')
  rw [hline] at hline'
  cases hline'

/-- A fiber that is not going to leave a line stands in none. -/
theorem Orderly.out_of_waiting (h : w.Orderly) {s : SuspensionId} {p : Suspension}
    {run : RunState} {onInterrupt : Canceler} (hp : w.suspension? s = some p)
    (hstate : p.state = .waiting run onInterrupt) (hstays : onInterrupt.Stays) {c : ChannelId}
    {ch : Channel Value SuspensionId} {e : Entry SuspensionId}
    (hch : w.store.channel? c = some ch) (he : e ∈ ch.entries) : e.place ≠ s := by
  rintro rfl
  obtain ⟨p', hp', -, hregistering | ⟨run', hleave⟩⟩ := h.lines hch he
  · obtain rfl := Option.some.inj (hp.symm.trans hp')
    rw [hstate] at hregistering
    cases hregistering
  · obtain rfl := Option.some.inj (hp.symm.trans hp')
    rw [hstate, SuspensionState.waiting.injEq] at hleave
    exact hstays _ _ _ hleave.2

theorem idles_schedule (w : World) (fiber : FiberId) (run : RunState) (step : Step) :
    w.Idles (w.schedule fiber run step) where
  suspensions := rfl
  channels := rfl
  old hr := ⟨_, hr, rfl, rfl⟩
  new hnone hr := by
    rw [store_schedule, hnone] at hr
    cases hr
  files hs := Or.inl (hs.of_store rfl rfl)

theorem Orderly.completed (h : w.Orderly) {s : SuspensionId} (hs : w.Plain s) (outcome : Outcome) :
    (w.resume s outcome).2.Orderly := by
  obtain ⟨p, hp, -⟩ := id hs
  unfold resume
  rw [hp]
  simp only
  cases p.state with
  | registering => exact h.vacate hp rfl (h.out_of_plain hs)
  | waiting run onInterrupt =>
    exact (h.vacate hp rfl (h.out_of_plain hs)).idle (idles_schedule _ _ _ _)
  | _ => exact h

/-- A place is made for a fiber that is parked nowhere. -/
theorem Orderly.opened (h : w.Orderly) {fiber : FiberId} (habsent : w.Absent fiber)
    (allowed : Bool) (registration : Registration) :
    (w.newSuspension fiber allowed registration).2.Orderly := by
  have hnew := w.suspension?_newSuspension fiber allowed registration
  have hnext := w.suspension?_next fiber allowed registration
  -- what was there before is not the new place
  have hold : ∀ {s p}, w.suspension? s = some p →
      (w.newSuspension fiber allowed registration).2.suspension? s = some p := by
    intro s p hp
    rw [hnew, if_neg, hp]
    rintro rfl
    rw [hnext] at hp
    cases hp
  have hback : ∀ {s p run onInterrupt},
      (w.newSuspension fiber allowed registration).2.suspension? s = some p →
      p.state = .waiting run onInterrupt → w.suspension? s = some p := by
    intro s p run onInterrupt hp hstate
    rw [hnew] at hp
    split at hp
    · obtain rfl := Option.some.inj hp
      cases hstate
    · exact hp
  have hfiber := fun other => w.store.fiber?_modifyFiber fiber other fun f =>
    { f with suspension := some (w.newSuspension fiber allowed registration).1 }
  refine ⟨?_, ?_, h.channels, ?_, ?_, ?_⟩
  · intro c ch e hch he
    obtain ⟨p, hp, hline, hstate⟩ := h.lines hch he
    exact ⟨p, hold hp, hline, hstate⟩
  · intro s p run c line ticket hp hstate
    exact h.leaves (hback hp hstate) hstate
  · intro s hs
    have hfiles : w.Files s := by
      cases hs with
      | alarm hmem heq => exact .alarm hmem heq
      | @observer other r o hr ho hwaiter =>
        replace hr := (hfiber other).symm.trans hr
        split at hr
        · obtain ⟨r', hr', rfl⟩ := Option.map_eq_some_iff.mp hr
          exact .observer hr' ho hwaiter
        · exact .observer hr ho hwaiter
    obtain ⟨p, hp, hline⟩ := h.filed hfiles
    exact ⟨p, hold hp, hline⟩
  · intro other r s hr hs
    replace hr := (hfiber other).symm.trans hr
    split at hr
    · next heq =>
      obtain ⟨r', -, rfl⟩ := Option.map_eq_some_iff.mp hr
      obtain rfl := Option.some.inj hs
      exact ⟨_, (hnew _).trans (if_pos rfl), heq.symm⟩
    · obtain ⟨p, hp, hp'⟩ := h.owner hr hs
      exact ⟨p, hold hp, hp'⟩
  · intro s p run onInterrupt hp hstate
    have hp' := hback hp hstate
    obtain ⟨r, hr, hs⟩ := h.recorded hp' hstate
    refine ⟨r, ((hfiber p.fiber).trans ?_), hs⟩
    rw [if_neg, hr]
    -- the fiber for which the place is made is parked nowhere
    intro heq
    have hrun := habsent hp' heq
    rw [hstate] at hrun
    cases hrun

/-- A fiber finishes that is parked nowhere. -/
theorem Orderly.finished (h : w.Orderly) {fiber : FiberId} (habsent : w.Absent fiber)
    (outcome : Outcome) : (w.finish fiber outcome).Orderly := by
  have hfiber := fun other => w.store.fiber?_modifyFiber fiber other fun f =>
    { f with exit := some outcome, finished := true, suspension := none, observers := [] }
  refine ⟨h.lines, h.leaves, h.channels, ?_, ?_, ?_⟩
  · intro s hs
    have hfiles : w.Files s := by
      cases hs with
      | alarm hmem heq => exact .alarm hmem heq
      | @observer other r o hr ho hwaiter =>
        replace hr := (hfiber other).symm.trans hr
        split at hr
        · obtain ⟨r', -, rfl⟩ := Option.map_eq_some_iff.mp hr
          cases ho
        · exact .observer hr ho hwaiter
    exact h.filed hfiles
  · intro other r s hr hs
    replace hr := (hfiber other).symm.trans hr
    split at hr
    · obtain ⟨r', -, rfl⟩ := Option.map_eq_some_iff.mp hr
      cases hs
    · exact h.owner hr hs
  · intro s p run onInterrupt hp hstate
    obtain ⟨r, hr, hs⟩ := h.recorded hp hstate
    refine ⟨r, (hfiber p.fiber).trans ?_, hs⟩
    rw [if_neg, hr]
    intro heq
    have hrun := habsent hp heq
    rw [hstate] at hrun
    cases hrun

/-- Somebody leaves a line, and the place is given up. -/
theorem Orderly.left (h : w.Orderly) {s : SuspensionId} {place : Suspension} {run : RunState}
    {c : ChannelId} {ch : Channel Value SuspensionId} {line : Line} {ticket : Nat}
    (hplace : w.suspension? s = some place)
    (hstate : place.state = .waiting run (.leave c line ticket))
    (hch : w.store.channel? c = some ch) :
    ((w.setSuspension s .over).setChannel c (ch.leave line ticket)).Orderly := by
  obtain ⟨ch₁, hch₁, hentry⟩ := h.leaves hplace hstate
  obtain rfl := Option.some.inj (hch.symm.trans hch₁)
  have hchannel : ∀ other, ((w.setSuspension s .over).setChannel c
      (ch.leave line ticket)).store.channel? other =
        if other = c then some (ch.leave line ticket) else w.store.channel? other :=
    fun other => channel?_setChannel (w := w.setSuspension s .over) hch
  have hself : (w.setSuspension s .over).suspension? s = some { place with state := .over } := by
    rw [suspension?_setSuspension, if_pos rfl, hplace, Option.map_some]
  have hother : ∀ {t}, t ≠ s → (w.setSuspension s .over).suspension? t = w.suspension? t :=
    fun hne => by rw [suspension?_setSuspension, if_neg hne]
  -- the place stands only where it leaves
  have hout : ∀ {c' ch' e}, w.store.channel? c' = some ch' → e ∈ ch'.entries → e.place = s →
      c' = c ∧ e.line = line ∧ e.ticket = ticket := by
    rintro c' ch' e hch' he rfl
    obtain ⟨p, hp, -, hwait⟩ := h.lines hch' he
    obtain rfl := Option.some.inj (hplace.symm.trans hp)
    rw [hstate] at hwait
    rcases hwait with hwait | ⟨run', hwait⟩
    · cases hwait
    · simp only [SuspensionState.waiting.injEq, Canceler.leave.injEq] at hwait
      exact ⟨hwait.2.1.symm, hwait.2.2.1.symm, hwait.2.2.2.symm⟩
  have hleave : ∀ {e}, e ∈ (ch.leave line ticket).entries ↔
      e ∈ ch.entries ∧ ¬(e.line = line ∧ e.ticket = ticket) := by
    intro e
    rw [Channel.entries_leave, List.mem_filter, decide_eq_true_eq]
  have hpreserves : w.Preserves ((w.setSuspension s .over).setChannel c (ch.leave line ticket)) :=
    ⟨(w.preserves_setSuspension s .over).place⟩
  refine ⟨?_, ?_, ?_, ?_, ?_, ?_⟩
  · intro c' ch' e hch' he
    rw [hchannel] at hch'
    have hold : ∃ ch₀, w.store.channel? c' = some ch₀ ∧ e ∈ ch₀.entries ∧ e.place ≠ s := by
      split at hch'
      · next heq =>
        obtain rfl := Option.some.inj hch'
        obtain ⟨he', hne⟩ := hleave.mp he
        exact ⟨ch, heq ▸ hch, he', fun hs => hne (hout hch he' hs).2⟩
      · next hne => exact ⟨ch', hch', he, fun hs => hne (hout hch' he hs).1⟩
    obtain ⟨ch₀, hch₀, he₀, hne⟩ := hold
    obtain ⟨p, hp, hline, hwait⟩ := h.lines hch₀ he₀
    exact ⟨p, (hother hne).trans hp, hline, hwait⟩
  · intro t p run' c' line' ticket' hp hwait
    have hne : t ≠ s := by
      rintro rfl
      obtain rfl := Option.some.inj (hself.symm.trans hp)
      cases hwait
    obtain ⟨ch', hch', he⟩ := h.leaves ((hother hne).symm.trans hp) hwait
    simp only [hchannel]
    by_cases heq : c' = c
    · subst heq
      obtain rfl := Option.some.inj (hch.symm.trans hch')
      refine ⟨_, if_pos rfl, hleave.mpr ⟨he, fun hsame => hne ?_⟩⟩
      -- two holders of one ticket are one
      have hinj := List.inj_on_of_nodup_map (h.channels hch).tickets he hentry hsame.2
      exact congrArg Entry.place hinj
    · exact ⟨ch', by rw [if_neg heq, hch'], he⟩
  · intro c' ch' hch'
    rw [hchannel] at hch'
    split at hch'
    · obtain rfl := Option.some.inj hch'
      exact (h.channels hch).leave line ticket
    · exact h.channels hch'
  · intro t ht
    exact (h.filed (ht.of_store rfl rfl)).preserved hpreserves
  · intro fiber r t hr ht
    exact h.owner_of_preserves hpreserves hr ht
  · intro t p run' onInterrupt hp hwait
    by_cases heq : t = s
    · subst heq
      obtain rfl := Option.some.inj (hself.symm.trans hp)
      cases hwait
    · exact h.recorded ((hother heq).symm.trans hp) hwait

/-- What a channel does for a request. -/
theorem Asks.served {c : ChannelId} {ch : Channel Value SuspensionId}
    {request : Request Value SuspensionId} (h : w.Asks c ch request) :
    Channel.Served request ch (ch.serve request).1 (ch.serve request).2 :=
  ch.serve_entries h.stays

/-- Whoever is told something waits for the channel, and is not done with waiting. -/
theorem Orderly.of_told (h : w.Orderly) {c : ChannelId} {ch : Channel Value SuspensionId}
    {request : Request Value SuspensionId} (hch : w.store.channel? c = some ch)
    (hasks : w.Asks c ch request) {s : SuspensionId}
    (hs : s ∈ (ch.serve request).1.map Prod.fst) :
    ∃ p line, w.suspension? s = some p ∧ p.registration.line? = some (c, line) ∧
      w.isLive s = true := by
  have hmem := hasks.served.places.subset (List.mem_append_left _ hs)
  rcases List.mem_append.mp hmem with hentry | hask
  · obtain ⟨e, he, rfl⟩ := List.mem_map.mp hentry
    obtain ⟨p, hp, hline, hstate⟩ := h.lines hch he
    refine ⟨p, e.line, hp, hline, ?_⟩
    rw [isLive, hp, Option.map_some]
    rcases hstate with hstate | ⟨run, hstate⟩ <;> rw [hstate]
  · obtain ⟨p, hp, hstate, hregistration⟩ := hasks.asker (Option.mem_toList.mp hask)
    refine ⟨p, request.line, hp, Request.line?_of_registration hregistration, ?_⟩
    rw [isLive, hp, Option.map_some, hstate]

/-- Something is asked of a channel. -/
theorem Orderly.asked (h : w.Orderly) {c : ChannelId} {ch : Channel Value SuspensionId}
    {request : Request Value SuspensionId} (hch : w.store.channel? c = some ch)
    (hasks : w.Asks c ch request) : (w.ask c ch request).Orderly := by
  have hserved := hasks.served
  have hchannel : ∀ other, (w.ask c ch request).store.channel? other =
      if other = c then some (ch.serve request).2 else w.store.channel? other :=
    fun other => channel?_ask hch
  have hpreserves := w.preserves_ask c ch request
  have hother : ∀ {s}, s ∉ (ch.serve request).1.map Prod.fst →
      (w.ask c ch request).suspension? s = w.suspension? s :=
    fun hs => suspension?_tell_other (w := w.setChannel c (ch.serve request).2) hs
  -- who is parked afterwards has been told nothing
  have hparked : ∀ {s p run onInterrupt}, (w.ask c ch request).suspension? s = some p →
      p.state = .waiting run onInterrupt →
        w.suspension? s = some p ∧ s ∉ (ch.serve request).1.map Prod.fst := by
    intro s p run onInterrupt hp hstate
    have hnot : s ∉ (ch.serve request).1.map Prod.fst := by
      intro hmem
      obtain ⟨p₀, -, hp₀, -, -⟩ := h.of_told hch hasks hmem
      obtain ⟨state, hp', -, hover⟩ :=
        suspension?_tell (w := w.setChannel c (ch.serve request).2) (ch.serve request).1 hp₀
      obtain rfl := Option.some.inj (hp'.symm.trans hp)
      have hrun := SuspensionState.run?_of_isOver (hover hmem)
      simp only at hstate
      rw [hstate] at hrun
      cases hrun
    exact ⟨(hother hnot).symm.trans hp, hnot⟩
  have hdisjoint := hserved.told (h.channels hch) fun s hs => hasks.fresh hs
  refine ⟨?_, ?_, ?_, ?_, ?_, ?_⟩
  · intro c' ch' e hch' he
    rw [hchannel] at hch'
    split at hch'
    · next heq =>
      subst heq
      obtain rfl := Option.some.inj hch'
      have hnot : e.place ∉ (ch.serve request).1.map Prod.fst := fun hmem =>
        (List.nodup_append.mp hdisjoint).2.2 _ hmem _ (List.mem_map_of_mem he) rfl
      rw [hother hnot]
      rcases hserved.entries e he with hold | ⟨hask, hline, -, -⟩
      · exact h.lines hch hold
      · -- the asker is about to wait
        obtain ⟨p, hp, hstate, hregistration⟩ := hasks.asker hask
        exact ⟨p, hp, hline ▸ Request.line?_of_registration hregistration, Or.inl hstate⟩
    · next hne =>
      obtain ⟨p, hp, hline, hstate⟩ := h.lines hch' he
      refine ⟨p, (hother fun hmem => hne ?_).trans hp, hline, hstate⟩
      -- who is told something waits for another channel
      obtain ⟨p', line', hp', hline', -⟩ := h.of_told hch hasks hmem
      obtain rfl := Option.some.inj (hp.symm.trans hp')
      rw [hline, Option.some.injEq, Prod.mk.injEq] at hline'
      exact hline'.1
  · intro s p run c' line ticket hp hstate
    obtain ⟨hp', hnot⟩ := hparked hp hstate
    obtain ⟨ch', hch', he⟩ := h.leaves hp' hstate
    simp only [hchannel]
    by_cases heq : c' = c
    · subst heq
      obtain rfl := Option.some.inj (hch.symm.trans hch')
      exact ⟨_, if_pos rfl, hserved.stays (h.channels hch) (fun s hs => hasks.fresh hs) he hnot⟩
    · exact ⟨ch', by rw [if_neg heq, hch'], he⟩
  · intro c' ch' hch'
    rw [hchannel] at hch'
    split at hch'
    · obtain rfl := Option.some.inj hch'
      exact hserved.orderly (h.channels hch) fun s hs => hasks.fresh hs
    · exact h.channels hch'
  · intro s hs
    have hstore : (w.ask c ch request).store = (w.setChannel c (ch.serve request).2).store :=
      store_tell _ _
    exact (h.filed (hs.of_store (by rw [hstore]; rfl) (by rw [hstore]; rfl))).preserved hpreserves
  · intro fiber r s hr hs
    rw [ask, store_tell] at hr
    exact h.owner_of_preserves hpreserves hr hs
  · intro s p run onInterrupt hp hstate
    obtain ⟨r, hr, hs⟩ := h.recorded (hparked hp hstate).1 hstate
    refine ⟨r, ?_, hs⟩
    rw [ask, store_tell]
    exact hr

/-- A channel is made. -/
theorem Orderly.made (h : w.Orderly) (capacity : Option Nat) :
    Orderly { w with store := { w.store with channels := w.store.channels.push { capacity } } } := by
  have hchannel : ∀ {c ch}, Store.channel? { w.store with
      channels := w.store.channels.push { capacity } } c = some ch →
        w.store.channel? c = some ch ∨ ch = { capacity } := by
    intro c ch hch
    rw [channel?_push] at hch
    split at hch
    · exact Or.inr (Option.some.inj hch).symm
    · exact Or.inl hch
  have hold : ∀ {c ch}, w.store.channel? c = some ch →
      Store.channel? { w.store with channels := w.store.channels.push { capacity } } c =
        some ch := by
    intro c ch hch
    rw [channel?_push, if_neg, hch]
    rintro rfl
    rw [Store.channel?, Numbered.get?_next] at hch
    cases hch
  refine ⟨?_, ?_, ?_, ?_, h.owner, h.recorded⟩
  · intro c ch e hch he
    rcases hchannel hch with hch | rfl
    · exact h.lines hch he
    · cases he
  · intro s p run c line ticket hp hstate
    obtain ⟨ch, hch, he⟩ := h.leaves hp hstate
    exact ⟨ch, hold hch, he⟩
  · intro c ch hch
    rcases hchannel hch with hch | rfl
    · exact h.channels hch
    · exact Channel.orderly_new capacity
  · intro s hs
    exact h.filed (hs.of_store rfl rfl)

end World

/-- **Whatever happens leaves an orderly world.** -/
theorem Chronicle.orderly {w w' : World} {deeds : List Deed} (h : Chronicle w deeds w')
    (hw : w.Orderly) : w'.Orderly := by
  induction h with
  | idle hidle => exact hw.idle hidle
  | opened fiber allowed registration habsent => exact hw.opened habsent allowed registration
  | parked run hplace hstate hr hs hfits =>
    refine hw.setSuspension hplace (fun hch he heq => ?_) (fun heq => ?_) fun _ => ⟨_, hr, hs⟩
    · rw [hfits.stands hch he heq]
      exact ⟨run, rfl⟩
    · exact hfits.leaves (SuspensionState.waiting.inj heq).2
  | @vacated w s place hplace hvacant hplain =>
    refine hw.vacate hplace rfl ?_
    -- a place in a line is registering or waiting
    rintro c ch e hch he rfl
    obtain ⟨p, hp, hline, hstate | ⟨run, hstate⟩⟩ := hw.lines hch he
    · obtain rfl := Option.some.inj (hplace.symm.trans hp)
      rw [hplain hstate] at hline
      cases hline
    · obtain rfl := Option.some.inj (hplace.symm.trans hp)
      rw [hstate] at hvacant
      cases hvacant
  | completed outcome hplain _ => exact hw.completed hplain outcome
  | interrupted source hplace hstate hstays _ ih =>
    exact (ih (hw.vacate hplace rfl (hw.out_of_waiting hplace hstate hstays))).idle
      (World.idles_schedule _ _ _ _)
  | left source hplace hstate hch =>
    exact (hw.left hplace hstate hch).idle (World.idles_schedule _ _ _ _)
  | made _ => exact hw.made _
  | asked hch hasks => exact hw.asked hch hasks
  | finished outcome _ habsent => exact hw.finished habsent outcome
  | trans _ _ ih ih' => exact ih' (ih hw)

/-- Every place stays that of its fiber and of its wait. -/
theorem Chronicle.preserves {w w' : World} {deeds : List Deed} (h : Chronicle w deeds w') :
    w.Preserves w' := by
  induction h with
  | idle hidle => exact .of_suspensions hidle.suspensions
  | opened fiber allowed registration _ =>
    refine ⟨fun {s p} hp => ⟨p.state, ?_⟩⟩
    rw [World.suspension?_newSuspension, if_neg, hp]
    rintro rfl
    rw [World.suspension?_next] at hp
    cases hp
  | parked run _ _ _ _ _ | vacated _ _ _ => exact World.preserves_setSuspension _ _ _
  | completed outcome _ _ => exact World.preserves_resume _ _ outcome
  | interrupted source _ _ _ _ ih =>
    exact ((World.preserves_setSuspension _ _ _).trans ih).trans (.of_suspensions rfl)
  | left source _ _ _ =>
    exact (World.preserves_setSuspension _ _ _).trans (.of_suspensions rfl)
  | made _ => exact .of_suspensions rfl
  | asked _ _ => exact World.preserves_ask _ _ _ _
  | finished outcome _ _ => exact .of_suspensions rfl
  | trans _ _ ih ih' => exact ih.trans ih'

end Fibers
