import Fibers.Proofs.Linearity
import Fibers.Proofs.Withdrawal

/-!
# Channels deliver as one list

Every channel of a runtime serves what is asked of it as the list of `Queue` does, whoever asks,
under every schedule, and whoever is interrupted while waiting.  So elements are delivered once,
in the order in which they were offered, and none is lost as long as the channel is open and its
offerer is not interrupted; an offer has to wait exactly as long as its element stands at a
position for which there is no room.

## Main definitions

* `requestsAt`, `answersAt` — what deeds tell of one channel.
* `World.HasAsked` — a place from which nothing more can be asked.
* `World.ShowsAt` — a channel stands for a list.
* `Channel.listAfter` — the list that a channel should stand for after some requests.
* `World.Delivers` — everything that is promised of a channel.

## Main results

* `Chronicle.showsAt`, `Chronicle.showsAt_new` — what happens to the list for which a channel
  stands.
* `Chronicle.nodup_askers` — nobody asks twice from one place.
* `Workshop.Run.delivers` — **every channel delivers as one list.**
-/

namespace Fibers

/-- The request that a deed makes of a channel. -/
def Deed.requestAt? (c : ChannelId) : Deed → Option (Request Value SuspensionId)
  | .asked d request => if d = c then some request else none
  | _ => none

/-- What a deed tells at a place that waits for a channel. -/
def Deed.answerAt? (c : ChannelId) : Deed → Option (SuspensionId × Answer Value)
  | .answered d s answer => if d = c then some (s, answer) else none
  | _ => none

/-- What has been asked of a channel. -/
def requestsAt (c : ChannelId) (deeds : List Deed) : List (Request Value SuspensionId) :=
  deeds.filterMap (·.requestAt? c)

/-- What a channel has told, and at which places. -/
def answersAt (c : ChannelId) (deeds : List Deed) : List (SuspensionId × Answer Value) :=
  deeds.filterMap (·.answerAt? c)

section Deeds

variable {c d : ChannelId} {deeds deeds' : List Deed}

theorem requestsAt_append :
    requestsAt c (deeds ++ deeds') = requestsAt c deeds ++ requestsAt c deeds' :=
  List.filterMap_append ..

theorem answersAt_append :
    answersAt c (deeds ++ deeds') = answersAt c deeds ++ answersAt c deeds' :=
  List.filterMap_append ..

theorem requestsAt_interrupted (s : SuspensionId) (source : FiberId) :
    requestsAt c (.interrupted s source :: .cancelled s :: deeds) = requestsAt c deeds := rfl

theorem requestsAt_cons (request : Request Value SuspensionId) :
    requestsAt c (.asked d request :: deeds) =
      (if d = c then [request] else []) ++ requestsAt c deeds := by
  by_cases heq : d = c
  · have hsome : (Deed.asked d request).requestAt? c = some request := if_pos heq
    rw [if_pos heq, requestsAt, List.filterMap_cons_some hsome]
    rfl
  · have hnone : (Deed.asked d request).requestAt? c = none := if_neg heq
    rw [if_neg heq, requestsAt, List.filterMap_cons_none hnone]
    rfl

theorem requestsAt_asked (request : Request Value SuspensionId)
    (told : List (SuspensionId × Answer Value)) :
    requestsAt c (.asked d request :: told.map fun t => .answered d t.1 t.2) =
      if d = c then [request] else [] := by
  have hnone : requestsAt c (told.map fun t => .answered d t.1 t.2) = [] := by
    rw [requestsAt, List.filterMap_eq_nil_iff]
    intro deed hdeed
    obtain ⟨t, -, rfl⟩ := List.mem_map.mp hdeed
    rfl
  rw [requestsAt_cons, hnone, List.append_nil]

theorem requestsAt_left (s : SuspensionId) (source : FiberId) (line : Line) (ticket : Nat) :
    requestsAt c [.interrupted s source, .cancelled s, .asked d (.leave line ticket s)] =
      if d = c then [.leave line ticket s] else [] := by
  rw [requestsAt_interrupted, requestsAt_cons]
  exact List.append_nil _

theorem answersAt_asked (request : Request Value SuspensionId)
    (told : List (SuspensionId × Answer Value)) :
    answersAt c (.asked d request :: told.map fun t => .answered d t.1 t.2) =
      if d = c then told else [] := by
  have hcons : answersAt c (.asked d request :: told.map fun t => .answered d t.1 t.2) =
      (told.map fun t => Deed.answered d t.1 t.2).filterMap (·.answerAt? c) := rfl
  rw [hcons, List.filterMap_map]
  split
  · next heq =>
    have hsome : (fun deed : Deed => deed.answerAt? c) ∘ (fun t => Deed.answered d t.1 t.2) =
        some := by
      funext t
      exact if_pos heq
    rw [hsome, List.filterMap_some]
  · next hne =>
    rw [List.filterMap_eq_nil_iff]
    intro t _
    exact if_neg hne

end Deeds

/-! ### Who has asked -/

namespace World

/-- The wait at a place is past its registration. -/
def Begun (w : World) (p : SuspensionId) : Prop :=
  ∃ place, w.suspension? p = some place ∧ place.state ≠ .registering

/-- A place stands in a line of a channel. -/
def InLine (w : World) (c : ChannelId) (p : SuspensionId) : Prop :=
  ∃ ch, w.store.channel? c = some ch ∧ p ∈ ch.entries.map Entry.place

/-- Nothing more can be asked from a place. -/
def HasAsked (w : World) (p : SuspensionId) : Prop := w.Begun p ∨ ∃ c, w.InLine c p

variable {w w' : World}

theorem begun_of_isOver {p : SuspensionId} (h : w.isOver p = true) : w.Begun p := by
  obtain ⟨place, hplace, hover⟩ := (Option.any_eq_true ..).mp h
  refine ⟨place, hplace, fun hstate => ?_⟩
  rw [hstate] at hover
  cases hover

theorem begun_setSuspension {s p : SuspensionId} {state : SuspensionState} (h : w.Begun p)
    (hstate : state ≠ .registering) : (w.setSuspension s state).Begun p := by
  obtain ⟨place, hplace, hbegun⟩ := h
  by_cases heq : p = s
  · subst heq
    refine ⟨{ place with state }, ?_, hstate⟩
    rw [suspension?_setSuspension, if_pos rfl, hplace, Option.map_some]
  · refine ⟨place, ?_, hbegun⟩
    rw [suspension?_setSuspension, if_neg heq, hplace]

/-- Who asks something has not asked anything before. -/
theorem Asks.not_hasAsked (hw : w.Orderly) {c : ChannelId} {ch : Channel Value SuspensionId}
    {request : Request Value SuspensionId} (hch : w.store.channel? c = some ch)
    (h : w.Asks c ch request) {p : SuspensionId} (hp : request.asker? = some p) :
    ¬ w.HasAsked p := by
  obtain ⟨place, hplace, hstate, hregistration⟩ := h.asker hp
  rintro (⟨place', hplace', hbegun⟩ | ⟨d, ch', hch', hmem⟩)
  · obtain rfl := Option.some.inj (hplace.symm.trans hplace')
    exact hbegun hstate
  · -- it waits for this channel, and so does not stand in a line of another
    obtain ⟨e, he, heq⟩ := List.mem_map.mp hmem
    obtain ⟨place', hplace', hline, -⟩ := hw.lines hch' he
    rw [heq] at hplace'
    obtain rfl := Option.some.inj (hplace.symm.trans hplace')
    rw [Request.line?_of_registration hregistration, Option.some.injEq, Prod.mk.injEq] at hline
    obtain ⟨rfl, -⟩ := hline
    obtain rfl := Option.some.inj (hch.symm.trans hch')
    exact h.fresh hp hmem

/-- Whoever asks something comes to stand in a line, or is told something. -/
theorem Asks.inLine_or_isOver {c : ChannelId} {ch : Channel Value SuspensionId}
    {request : Request Value SuspensionId} (hch : w.store.channel? c = some ch)
    (h : w.Asks c ch request) {p : SuspensionId}
    (hp : request.asker? = some p ∨ p ∈ ch.entries.map Entry.place)
    (hplace : (w.suspension? p).isSome) :
    (w.ask c ch request).InLine c p ∨ (w.ask c ch request).isOver p = true := by
  have hmem : p ∈ ch.entries.map Entry.place ++ request.asker?.toList := by
    rcases hp with hp | hp
    · exact List.mem_append_right _ (Option.mem_toList.mpr hp)
    · exact List.mem_append_left _ hp
  rcases List.mem_append.mp (h.served.places.symm.subset hmem) with htold | hline
  · obtain ⟨place, hplace⟩ := Option.isSome_iff_exists.mp hplace
    obtain ⟨state, hp', -, hover⟩ := suspension?_tell
      (w := w.setChannel c (ch.serve request).2) (ch.serve request).1 hplace
    refine Or.inr ?_
    rw [isOver, ask, hp']
    exact hover htold
  · refine Or.inl ⟨(ch.serve request).2, ?_, hline⟩
    rw [channel?_ask hch, if_pos rfl]

end World

namespace Chronicle

variable {w w' : World} {deeds : List Deed}

/-- A wait that is over stays over. -/
theorem isOver (h : Chronicle w deeds w') (hw : w.Orderly) {p : SuspensionId}
    (hp : w.isOver p = true) : w'.isOver p = true := by
  have hends := h.countP_ends_le hw p
  rw [hp, Bool.toNat_true] at hends
  cases hover : w'.isOver p with
  | true => rfl
  | false =>
    rw [hover, Bool.toNat_false] at hends
    omega

/-- A wait that is past its registration does not go back. -/
theorem begun (h : Chronicle w deeds w') {p : SuspensionId} (hp : w.Begun p) : w'.Begun p := by
  induction h with
  | @idle w w' hidle =>
    obtain ⟨place, hplace, hbegun⟩ := hp
    refine ⟨place, ?_, hbegun⟩
    rw [World.suspension?, hidle.suspensions]
    exact hplace
  | opened fiber allowed registration _ =>
    obtain ⟨place, hplace, hbegun⟩ := hp
    refine ⟨place, ?_, hbegun⟩
    rw [World.suspension?_newSuspension, if_neg, hplace]
    rintro rfl
    rw [World.suspension?_next] at hplace
    cases hplace
  | parked _ _ _ _ _ _ | vacated _ _ _ =>
    exact World.begun_setSuspension hp (by intro heq; cases heq)
  | @completed w s outcome _ _ =>
    obtain ⟨place, hplace, hbegun⟩ := hp
    by_cases heq : p = s
    · subst heq
      refine World.begun_of_isOver ?_
      rw [World.isOver_resume hplace, if_pos rfl]
    · refine ⟨place, ?_, hbegun⟩
      rw [World.suspension?_resume, if_neg heq, hplace]
  | interrupted source _ _ _ _ ih =>
    exact ih (World.begun_setSuspension hp (by intro heq; cases heq))
  | left source _ _ _ => exact World.begun_setSuspension hp (by intro heq; cases heq)
  | made _ | finished outcome _ _ => exact hp
  | @asked w c ch request _ _ =>
    obtain ⟨place, hplace, hbegun⟩ := hp
    obtain ⟨state, hplace', hsame, hover⟩ := World.suspension?_tell
      (w := w.setChannel c (ch.serve request).2) (ch.serve request).1 hplace
    refine ⟨{ place with state }, hplace', ?_⟩
    change state ≠ .registering
    rintro rfl
    by_cases hmem : p ∈ (ch.serve request).1.map Prod.fst
    · cases hover hmem
    · exact hbegun (hsame hmem).symm
  | trans _ _ ih ih' => exact ih' (ih hp)

/-- Who stands in a line stays there until the wait is over. -/
theorem inLine (h : Chronicle w deeds w') (hw : w.Orderly) {c : ChannelId} {p : SuspensionId}
    (hp : w.InLine c p) : w'.InLine c p ∨ w'.isOver p = true := by
  induction h with
  | @idle w w' hidle =>
    obtain ⟨ch, hch, hmem⟩ := hp
    refine Or.inl ⟨ch, ?_, hmem⟩
    rw [Store.channel?, hidle.channels]
    exact hch
  | opened _ _ _ _ | parked _ _ _ _ _ _ | vacated _ _ _ | finished _ _ _ => exact Or.inl hp
  | completed outcome _ _ =>
    obtain ⟨ch, hch, hmem⟩ := hp
    exact Or.inl ⟨ch, by rw [World.store_resume, hch], hmem⟩
  | interrupted source hplace hstate hstays _ ih =>
    exact ih (hw.vacate hplace rfl (hw.out_of_waiting hplace hstate hstays)) hp
  | @left w s place run d ch line ticket source hplace hstate hch =>
    by_cases heq : p = s
    · subst heq
      refine Or.inr ?_
      have hover : (w.setSuspension p .over).isOver p = true := by
        rw [World.isOver_setSuspension hplace, if_pos rfl]
        rfl
      exact hover
    · obtain ⟨ch', hch', hmem⟩ := hp
      refine Or.inl ?_
      have hchannel : ((w.setSuspension s .over).setChannel d
          (ch.leave line ticket)).store.channel? c =
            if c = d then some (ch.leave line ticket) else w.store.channel? c :=
        World.channel?_setChannel (w := w.setSuspension s .over) hch
      by_cases hc : c = d
      · subst hc
        obtain rfl := Option.some.inj (hch.symm.trans hch')
        refine ⟨_, hchannel.trans (if_pos rfl), ?_⟩
        -- the one who leaves is another one
        obtain ⟨ch₁, hch₁, hentry⟩ := hw.leaves hplace hstate
        obtain rfl := Option.some.inj (hch.symm.trans hch₁)
        obtain ⟨e, he, rfl⟩ := List.mem_map.mp hmem
        refine List.mem_map_of_mem ?_
        rw [Channel.entries_leave, List.mem_filter, decide_eq_true_eq]
        refine ⟨he, fun hsame => heq ?_⟩
        exact congrArg Entry.place
          (List.inj_on_of_nodup_map (hw.channels hch).tickets he hentry hsame.2)
      · exact ⟨ch', hchannel.trans ((if_neg hc).trans hch'), hmem⟩
  | @made w capacity _ =>
    obtain ⟨ch, hch, hmem⟩ := hp
    refine Or.inl ⟨ch, ?_, hmem⟩
    rw [World.channel?_push, if_neg, hch]
    rintro rfl
    rw [Store.channel?, Numbered.get?_next] at hch
    cases hch
  | @asked w d ch request hch hasks =>
    obtain ⟨ch', hch', hmem⟩ := hp
    by_cases hc : c = d
    · subst hc
      obtain rfl := Option.some.inj (hch.symm.trans hch')
      obtain ⟨e, he, rfl⟩ := List.mem_map.mp hmem
      obtain ⟨place, hplace, -⟩ := hw.lines hch he
      exact hasks.inLine_or_isOver hch (Or.inr hmem) (Option.isSome_iff_exists.mpr ⟨place, hplace⟩)
    · exact Or.inl ⟨ch', by rw [World.channel?_ask hch, if_neg hc, hch'], hmem⟩
  | trans h h' ih ih' =>
    rcases ih hw hp with hline | hover
    · exact ih' (h.orderly hw) hline
    · exact Or.inr (h'.isOver (h.orderly hw) hover)

theorem hasAsked (h : Chronicle w deeds w') (hw : w.Orderly) {p : SuspensionId}
    (hp : w.HasAsked p) : w'.HasAsked p := by
  rcases hp with hbegun | ⟨c, hline⟩
  · exact Or.inl (h.begun hbegun)
  · rcases h.inLine hw hline with hline' | hover
    · exact Or.inr ⟨c, hline'⟩
    · exact Or.inl (World.begun_of_isOver hover)

/-- **Nobody asks twice from one place.** -/
theorem nodup_askers (h : Chronicle w deeds w') (hw : w.Orderly) (c : ChannelId) :
    (Queue.askers (requestsAt c deeds)).Nodup ∧
      ∀ p ∈ Queue.askers (requestsAt c deeds), ¬ w.HasAsked p ∧ w'.HasAsked p := by
  have hnil : ∀ {w w' : World}, (Queue.askers ([] : List (Request Value SuspensionId))).Nodup ∧
      ∀ p ∈ Queue.askers ([] : List (Request Value SuspensionId)),
        ¬ w.HasAsked p ∧ w'.HasAsked p :=
    ⟨List.nodup_nil, fun p hp => by cases hp⟩
  induction h with
  | idle _ | opened _ _ _ _ | parked _ _ _ _ _ _ | vacated _ _ _ => exact hnil
  | completed _ _ _ | made _ | finished _ _ _ => exact hnil
  | @interrupted w s place run onInterrupt deeds source hplace hstate hstays _ ih =>
    obtain ⟨hnodup, hasked⟩ := ih (hw.vacate hplace rfl (hw.out_of_waiting hplace hstate hstays))
    rw [requestsAt_interrupted]
    refine ⟨hnodup, fun p hp => ⟨fun hbefore => (hasked p hp).1 ?_, (hasked p hp).2⟩⟩
    rcases hbefore with hbegun | hline
    · exact Or.inl (World.begun_setSuspension hbegun (by intro heq; cases heq))
    · exact Or.inr hline
  | @left w s place run d ch line ticket source _ _ _ =>
    have hleave : Queue.askers (requestsAt c
        [.interrupted s source, .cancelled s, .asked d (.leave line ticket s)]) = [] := by
      rw [requestsAt_left]
      split <;> rfl
    rw [hleave]
    exact hnil
  | @asked w d ch request hch hasks =>
    rw [requestsAt_asked]
    split
    · rw [show Queue.askers [request] = request.asker?.toList by
        rw [Queue.askers, List.filterMap_cons]; cases request.asker? <;> rfl]
      refine ⟨by cases request.asker? <;> simp, fun p hp => ?_⟩
      have hasker := Option.mem_toList.mp hp
      refine ⟨hasks.not_hasAsked hw hch hasker, ?_⟩
      obtain ⟨place, hplace, -⟩ := hasks.asker hasker
      rcases hasks.inLine_or_isOver hch (Or.inl hasker)
        (Option.isSome_iff_exists.mpr ⟨place, hplace⟩) with hline | hover
      · exact Or.inr ⟨d, hline⟩
      · exact Or.inl (World.begun_of_isOver hover)
    · exact hnil
  | trans h h' ih ih' =>
    obtain ⟨hnodup, hasked⟩ := ih hw
    obtain ⟨hnodup', hasked'⟩ := ih' (h.orderly hw)
    rw [requestsAt_append, Queue.askers, List.filterMap_append]
    refine ⟨List.nodup_append.mpr ⟨hnodup, hnodup', ?_⟩, fun p hp => ?_⟩
    · rintro p hp _ hp' rfl
      exact (hasked' p hp').1 (hasked p hp).2
    · rcases List.mem_append.mp hp with hp | hp
      · exact ⟨(hasked p hp).1, h'.hasAsked (h.orderly hw) (hasked p hp).2⟩
      · exact ⟨fun hbefore => (hasked' p hp).1 (h.hasAsked hw hbefore), (hasked' p hp).2⟩

/-- Whoever has asked something of a channel stands in a line of it until the wait is over. -/
theorem inLine_of_asker (h : Chronicle w deeds w') (hw : w.Orderly) {c : ChannelId}
    {r : Request Value SuspensionId} (hr : r ∈ requestsAt c deeds) {p : SuspensionId}
    (hp : r.asker? = some p) :
    (w'.InLine c p ∨ w'.isOver p = true) ∧
      ∃ place, w'.suspension? p = some place ∧ r.registration? c = some place.registration := by
  induction h with
  | idle _ | opened _ _ _ _ | parked _ _ _ _ _ _ | vacated _ _ _ => cases hr
  | completed _ _ _ | made _ | finished _ _ _ => cases hr
  | interrupted source hplace hstate hstays _ ih =>
    exact ih (hw.vacate hplace rfl (hw.out_of_waiting hplace hstate hstays)) hr
  | @left w s place run d ch line ticket source _ _ _ =>
    rw [requestsAt_left] at hr
    split at hr
    · obtain rfl := List.mem_singleton.mp hr
      cases hp
    · cases hr
  | @asked w d ch request hch hasks =>
    rw [requestsAt_asked] at hr
    split at hr
    · next heq =>
      subst heq
      obtain rfl := List.mem_singleton.mp hr
      obtain ⟨place, hplace, -, hregistration⟩ := hasks.asker hp
      refine ⟨hasks.inLine_or_isOver hch (Or.inl hp)
        (Option.isSome_iff_exists.mpr ⟨place, hplace⟩), ?_⟩
      obtain ⟨state, hplace'⟩ := (World.preserves_ask w d ch r).place hplace
      exact ⟨_, hplace', hregistration⟩
    · cases hr
  | trans h h' ih ih' =>
    rw [requestsAt_append] at hr
    rcases List.mem_append.mp hr with hr | hr
    · obtain ⟨hstands, place, hplace, hregistration⟩ := ih hw hr
      obtain ⟨state, hplace'⟩ := h'.preserves.place hplace
      refine ⟨?_, _, hplace', hregistration⟩
      rcases hstands with hline | hover
      · exact h'.inLine (h.orderly hw) hline
      · exact Or.inr (h'.isOver (h.orderly hw) hover)
    · exact ih' (h.orderly hw) hr

end Chronicle

/-! ### The list for which a channel stands -/

/-- A channel stands for a list, and from the places in the list nothing more can be asked. -/
structure World.ShowsAt (w : World) (c : ChannelId) (q : Queue Value SuspensionId) : Prop where
  shows : ∃ ch, w.store.channel? c = some ch ∧ ch.Shows q
  regular : q.Regular
  places : q.places.Nodup
  asked : ∀ p ∈ q.places, w.HasAsked p

namespace World.ShowsAt

variable {w w' : World} {c : ChannelId} {q : Queue Value SuspensionId}

/-- Nothing is asked of the channel. -/
theorem of_same (h : w.ShowsAt c q) {deeds : List Deed} (hdeeds : Chronicle w deeds w')
    (hw : w.Orderly) (hc : w'.store.channel? c = w.store.channel? c) : w'.ShowsAt c q where
  shows := by
    rw [hc]
    exact h.shows
  regular := h.regular
  places := h.places
  asked p hp := hdeeds.hasAsked hw (h.asked p hp)

/-- Something is asked of the channel, or somebody leaves a line of it. -/
theorem serve (h : w.ShowsAt c q) {deeds : List Deed} (hdeeds : Chronicle w deeds w')
    (hw : w.Orderly) {ch ch' : Channel Value SuspensionId} (hch : w.store.channel? c = some ch)
    {r : Request Value SuspensionId} (hserve : (ch.serve r).2 = ch')
    (hch' : w'.store.channel? c = some ch')
    (hleave : ∀ line ticket s, r = .leave line ticket s → ⟨line, ticket, s⟩ ∈ ch.entries)
    (hasker : ∀ s, r.asker? = some s → ¬ w.HasAsked s ∧ w'.HasAsked s) :
    w'.ShowsAt c (q.serve r).2 ∧ (ch.serve r).1 = (q.serve r).1 ∧ q.Allows r := by
  obtain ⟨ch₁, hch₁, hshows⟩ := h.shows
  obtain rfl := Option.some.inj (hch.symm.trans hch₁)
  obtain ⟨htold, hshows'⟩ := hshows.serve (hw.channels hch) h.regular h.places hleave
  refine ⟨⟨⟨ch', hch', hserve ▸ hshows'⟩, h.regular.serve r, ?_, fun p hp => ?_⟩, htold, ?_⟩
  · -- the place of the asker is new to the list
    rw [List.nodup_iff_count_le_one]
    intro p
    have hcount := q.count_places_serve r p
    have hbefore := List.nodup_iff_count_le_one.mp h.places p
    by_cases hp : r.asker? = some p
    · have hnew : p ∉ q.places := fun hmem => (hasker p hp).1 (h.asked p hmem)
      rw [List.count_eq_zero.mpr hnew, hp] at hcount
      simpa using hcount
    · have hnone : r.asker?.toList.count p = 0 :=
        List.count_eq_zero.mpr fun hmem => hp (Option.mem_toList.mp hmem)
      omega
  · have hcount := q.count_places_serve r p
    have hpos := List.count_pos_iff.mpr hp
    by_cases hmem : p ∈ q.places
    · exact hdeeds.hasAsked hw (h.asked p hmem)
    · rw [List.count_eq_zero.mpr hmem] at hcount
      have hask : p ∈ r.asker?.toList := List.count_pos_iff.mp (by omega)
      exact (hasker p (Option.mem_toList.mp hask)).2
  · cases r with
    | leave line ticket s => exact hshows.mem_line (hleave line ticket s rfl)
    | _ => trivial

end World.ShowsAt

namespace Chronicle

variable {w w' : World} {deeds : List Deed} {c : ChannelId}

/-- **What is told of a channel is what happens to the list for which it stands.** -/
theorem showsAt (h : Chronicle w deeds w') (hw : w.Orderly) {q : Queue Value SuspensionId}
    (hq : w.ShowsAt c q) :
    w'.ShowsAt c (q.after (requestsAt c deeds)) ∧
      answersAt c deeds = q.answers (requestsAt c deeds) ∧
      q.Allowed (requestsAt c deeds) := by
  induction h generalizing q with
  | idle hidle =>
    refine ⟨hq.of_same (.idle hidle) hw ?_, rfl, trivial⟩
    rw [Store.channel?, hidle.channels, Store.channel?]
  | opened fiber allowed registration habsent =>
    exact ⟨hq.of_same (.opened fiber allowed registration habsent) hw rfl, rfl, trivial⟩
  | parked run hplace hstate hr hs hfits =>
    exact ⟨hq.of_same (.parked run hplace hstate hr hs hfits) hw rfl, rfl, trivial⟩
  | vacated hplace hvacant hplain =>
    exact ⟨hq.of_same (.vacated hplace hvacant hplain) hw rfl, rfl, trivial⟩
  | completed outcome hplain hlive =>
    refine ⟨hq.of_same (.completed outcome hplain hlive) hw ?_, rfl, trivial⟩
    rw [World.store_resume]
  | @interrupted w s place run onInterrupt deeds source hplace hstate hstays h' ih =>
    have hover : (w.setSuspension s .over).ShowsAt c q := by
      refine ⟨hq.shows, hq.regular, hq.places, fun p hp => ?_⟩
      rcases hq.asked p hp with hbegun | hline
      · exact Or.inl (World.begun_setSuspension hbegun (by intro heq; cases heq))
      · exact Or.inr hline
    have hw' : (w.setSuspension s .over).Orderly :=
      hw.vacate hplace rfl (hw.out_of_waiting hplace hstate hstays)
    obtain ⟨hshows, htold, hallowed⟩ := ih hw' hover
    exact ⟨hshows.of_same (.idle (World.idles_schedule _ _ _ _)) (h'.orderly hw') rfl, htold,
      hallowed⟩
  | @left w s place run d ch line ticket source hplace hstate hch =>
    have hleft := Chronicle.left source hplace hstate hch
    have hchannel : ∀ other, ((w.setSuspension s .over).setChannel d
        (ch.leave line ticket)).store.channel? other =
          if other = d then some (ch.leave line ticket) else w.store.channel? other :=
      fun other => World.channel?_setChannel (w := w.setSuspension s .over) hch
    rw [requestsAt_left]
    split
    · next heq =>
      subst heq
      obtain ⟨ch₁, hch₁, hentry⟩ := hw.leaves hplace hstate
      obtain rfl := Option.some.inj (hch.symm.trans hch₁)
      obtain ⟨hshows, htold, hallows⟩ := hq.serve hleft hw hch (r := .leave line ticket s) rfl
        ((hchannel d).trans (if_pos rfl))
        (fun line' ticket' s' heq => by obtain ⟨rfl, rfl, rfl⟩ := Request.leave.inj heq; exact hentry)
        (fun s' heq => by cases heq)
      refine ⟨hshows, ?_, hallows, trivial⟩
      rw [Queue.answers, ← htold]
      rfl
    · next hne =>
      exact ⟨hq.of_same hleft hw ((hchannel c).trans (if_neg (Ne.symm hne))), rfl, trivial⟩
  | @made w capacity hcapacity =>
    refine ⟨hq.of_same (.made hcapacity) hw ?_, rfl, trivial⟩
    obtain ⟨ch, hch, -⟩ := hq.shows
    rw [World.channel?_push, if_neg]
    rintro rfl
    rw [Store.channel?, Numbered.get?_next] at hch
    cases hch
  | @asked w d ch request hch hasks =>
    have hask := Chronicle.asked hch hasks
    rw [requestsAt_asked, answersAt_asked]
    split
    · next heq =>
      subst heq
      obtain ⟨hshows, htold, hallows⟩ := hq.serve hask hw hch rfl
        (by rw [World.channel?_ask hch, if_pos rfl])
        (fun line ticket s heq => absurd heq (hasks.stays line ticket s)) fun s hs => by
          have hasked := (hask.nodup_askers hw d).2 s
          rw [requestsAt_asked, if_pos rfl] at hasked
          exact hasked (List.mem_filterMap.mpr ⟨request, List.mem_singleton_self _, hs⟩)
      refine ⟨hshows, ?_, hallows, trivial⟩
      rw [Queue.answers, Queue.answers, List.append_nil, htold]
    · next hne =>
      refine ⟨hq.of_same hask hw ?_, rfl, trivial⟩
      rw [World.channel?_ask hch, if_neg (Ne.symm hne)]
  | finished outcome hphase habsent =>
    exact ⟨hq.of_same (.finished outcome hphase habsent) hw rfl, rfl, trivial⟩
  | trans h _ ih ih' =>
    obtain ⟨hshows, htold, hallowed⟩ := ih hw hq
    obtain ⟨hshows', htold', hallowed'⟩ := ih' (h.orderly hw) hshows
    rw [requestsAt_append, answersAt_append, Queue.after_append, Queue.answers_append]
    exact ⟨hshows', by rw [htold, htold'], Queue.allowed_append hallowed hallowed'⟩

/-- What becomes of a channel that has not been made. -/
theorem showsAt_new (h : Chronicle w deeds w') (hw : w.Orderly)
    (hc : w.store.channel? c = none) :
    (w'.store.channel? c = none ∧ requestsAt c deeds = [] ∧ answersAt c deeds = []) ∨
      ∃ capacity, w'.ShowsAt c (({ capacity } : Queue _ _).after (requestsAt c deeds)) ∧
        answersAt c deeds = ({ capacity } : Queue _ _).answers (requestsAt c deeds) ∧
        ({ capacity } : Queue _ _).Allowed (requestsAt c deeds) := by
  induction h with
  | idle hidle =>
    refine Or.inl ⟨?_, rfl, rfl⟩
    rw [Store.channel?, hidle.channels]
    exact hc
  | opened _ _ _ _ | parked _ _ _ _ _ _ | vacated _ _ _ | finished _ _ _ =>
    exact Or.inl ⟨hc, rfl, rfl⟩
  | completed outcome _ _ => exact Or.inl ⟨by rw [World.store_resume, hc], rfl, rfl⟩
  | @interrupted w s place run onInterrupt deeds source hplace hstate hstays h' ih =>
    have hw' : (w.setSuspension s .over).Orderly :=
      hw.vacate hplace rfl (hw.out_of_waiting hplace hstate hstays)
    rcases ih hw' hc with hnone | ⟨capacity, hshows, htold, hallowed⟩
    · exact Or.inl hnone
    · exact Or.inr ⟨capacity,
        hshows.of_same (.idle (World.idles_schedule _ _ _ _)) (h'.orderly hw') rfl, htold, hallowed⟩
  | @left w s place run d ch line ticket source _ _ hch =>
    have hne : c ≠ d := by
      rintro rfl
      rw [hc] at hch
      cases hch
    refine Or.inl ⟨?_, ?_, rfl⟩
    · exact (World.channel?_setChannel (w := w.setSuspension s .over) hch).trans ((if_neg hne).trans hc)
    · rw [requestsAt_left, if_neg (Ne.symm hne)]
  | @made w capacity hcapacity =>
    by_cases heq : c = ⟨w.store.channels.next⟩
    · refine Or.inr ⟨capacity, ⟨⟨{ capacity }, ?_, .new capacity⟩, Queue.regular_new hcapacity,
        List.nodup_nil, fun p hp => by cases hp⟩, rfl, trivial⟩
      rw [World.channel?_push, if_pos heq]
    · refine Or.inl ⟨?_, rfl, rfl⟩
      rw [World.channel?_push, if_neg heq, hc]
  | @asked w d ch request hch hasks =>
    have hne : c ≠ d := by
      rintro rfl
      rw [hc] at hch
      cases hch
    rw [requestsAt_asked, answersAt_asked, if_neg (Ne.symm hne), if_neg (Ne.symm hne)]
    refine Or.inl ⟨?_, rfl, rfl⟩
    rw [World.channel?_ask hch, if_neg hne, hc]
  | trans h h' ih ih' =>
    rw [requestsAt_append, answersAt_append]
    rcases ih hw hc with ⟨hnone, hrequests, hanswers⟩ | ⟨capacity, hshows, htold, hallowed⟩
    · rw [hrequests, hanswers]
      exact ih' (h.orderly hw) hnone
    · obtain ⟨hshows', htold', hallowed'⟩ := h'.showsAt (h.orderly hw) hshows
      refine Or.inr ⟨capacity, ?_, ?_, Queue.allowed_append hallowed hallowed'⟩
      · rw [Queue.after_append]
        exact hshows'
      · rw [Queue.answers_append, htold, htold']

end Chronicle

/-! ### What is told and what is taken -/

/-- The element that is told. -/
def Answer.element? {α : Type} : Answer α → Option α
  | .element a => some a
  | .done => none
  | .closed _ => none

namespace Queue

variable {α σ : Type} [DecidableEq σ]

/-- The elements among what is told. -/
def elements (told : List (σ × Answer α)) : List α := told.filterMap fun t => t.2.element?

omit [DecidableEq σ] in
theorem elements_eq_nil {told : List (σ × Answer α)} (h : ∀ t ∈ told, t.2.element? = none) :
    elements told = [] := List.filterMap_eq_nil_iff.mpr h

/-- For a request an element is told only if one is given away. -/
theorem elements_serve (q : Queue α σ) (r : Request α σ) :
    (elements (q.serve r).1).Sublist ((q.delivery? r).toList.map Prod.snd) := by
  have hadmitted : elements q.admitted = [] := by
    refine elements_eq_nil fun t ht => ?_
    obtain ⟨item, -, rfl⟩ := Option.map_eq_some_iff.mp (Option.mem_toList.mp ht)
    rfl
  unfold serve
  cases hclosed : q.closedBy with
  | some source =>
    have hnone : elements (serveClosed source r : List (σ × Answer α)) = [] := by
      cases r <;> rfl
    simp only [hnone]
    exact List.nil_sublist _
  | none =>
    simp only
    cases r with
    | offer s a =>
      cases htakers : q.takers with
      | cons t takers => simp [serveOpen, delivery?, hclosed, htakers, elements, Answer.element?]
      | nil =>
        have hnone : elements (q.serveOpen (.offer s a)).1 = [] := by
          simp only [serveOpen, htakers]
          split <;> rfl
        rw [hnone]
        exact List.nil_sublist _
    | take t =>
      cases hitems : q.items with
      | cons item items =>
        have htold : elements (q.serveOpen (.take t)).1 = [item.2] := by
          simp only [serveOpen, hitems]
          rw [elements, List.filterMap_append]
          exact congrArg (· ++ [item.2]) hadmitted
        rw [htold]
        simp [delivery?, hclosed, hitems]
      | nil =>
        simp only [serveOpen, hitems]
        exact List.nil_sublist _
    | poll =>
      have hnone : elements (q.serveOpen .poll).1 = [] := by
        simp only [serveOpen]
        split
        · exact hadmitted
        · rfl
      rw [hnone]
      exact List.nil_sublist _
    | watch s => exact List.nil_sublist _
    | leave line ticket s => exact List.nil_sublist _
    | close source =>
      have hnone : elements (q.serveOpen (.close source)).1 = [] := by
        refine elements_eq_nil fun t ht => ?_
        simp only [serveOpen, List.mem_append, List.mem_map] at ht
        rcases ht with (⟨_, -, rfl⟩ | ⟨_, -, rfl⟩) | ⟨_, -, rfl⟩ <;> rfl
      rw [hnone]
      exact List.nil_sublist _

/-- What takers are told are elements that are given away, in that order. -/
theorem elements_answers (q : Queue α σ) (rs : List (Request α σ)) :
    (elements (q.answers rs)).Sublist ((q.delivered rs).map Prod.snd) := by
  induction rs generalizing q with
  | nil => exact List.Sublist.refl _
  | cons r rs ih =>
    rw [answers, elements, List.filterMap_append, delivered, List.map_append]
    exact (q.elements_serve r).append (ih _)

theorem capacity_after (q : Queue α σ) (rs : List (Request α σ)) :
    (q.after rs).capacity = q.capacity := by
  have hserve : ∀ (q : Queue α σ) r, (q.serve r).2.capacity = q.capacity := by
    intro q r
    unfold serve
    split
    · rfl
    · cases r with
      | offer s a => simp only [serveOpen]; split <;> rfl
      | take t => simp only [serveOpen]; split <;> rfl
      | poll => simp only [serveOpen]; split <;> rfl
      | leave line ticket s => cases line <;> rfl
      | watch s | close source => rfl
  induction rs generalizing q with
  | nil => rfl
  | cons r rs ih => exact (ih _).trans (hserve q r)

/-- No element comes into the list but by an offer. -/
theorem items_after_subset (q : Queue α σ) (rs : List (Request α σ)) {item : σ × α}
    (h : item ∈ (q.after rs).items) : item ∈ q.items ∨ item ∈ offered rs := by
  induction rs generalizing q with
  | nil => exact Or.inl h
  | cons r rs ih =>
    rcases ih _ h with hitem | hoffered
    · rcases q.items_serve_subset r hitem with hold | hnew
      · exact Or.inl hold
      · exact Or.inr (List.mem_filterMap.mpr ⟨r, List.mem_cons_self, hnew⟩)
    · obtain ⟨r', hr', hsome⟩ := List.mem_filterMap.mp hoffered
      exact Or.inr (List.mem_filterMap.mpr ⟨r', List.mem_cons_of_mem _ hr', hsome⟩)

end Queue

/-- Who stands in a line of the list stands in that line of the channel. -/
theorem Channel.Shows.mem_entries {α σ : Type} {ch : Channel α σ} {q : Queue α σ}
    (h : ch.Shows q) {line : Line} {p : σ} (hp : p ∈ q.line line) :
    ∃ e ∈ ch.entries, e.line = line ∧ e.place = p := by
  cases line with
  | takers =>
    rw [Queue.line, ← h.takers] at hp
    obtain ⟨e, he, rfl⟩ := List.mem_map.mp hp
    exact ⟨⟨.takers, e.1, e.2⟩,
      List.mem_append_left _ (List.mem_append_left _ (List.mem_map_of_mem he)), rfl, rfl⟩
  | offerers =>
    rw [Queue.line, ← h.offerers, List.map_map] at hp
    obtain ⟨e, he, rfl⟩ := List.mem_map.mp hp
    exact ⟨⟨.offerers, e.1, e.2.2⟩,
      List.mem_append_left _ (List.mem_append_right _ (List.mem_map_of_mem he)), rfl, rfl⟩
  | watchers =>
    rw [Queue.line, ← h.watchers] at hp
    obtain ⟨e, he, rfl⟩ := List.mem_map.mp hp
    exact ⟨⟨.watchers, e.1, e.2⟩, List.mem_append_right _ (List.mem_map_of_mem he), rfl, rfl⟩

namespace World

variable {w : World} {c : ChannelId} {q : Queue Value SuspensionId}

/-- Taking elements one after the other takes them from the head of the list. -/
theorem takeUpTo_of_showsAt (hw : w.Orderly) (hq : w.ShowsAt c q) (hopen : q.closedBy = none)
    (limit : Nat) : (w.takeUpTo c limit).1 = (q.items.take limit).map Prod.snd := by
  induction limit generalizing w q with
  | zero => rfl
  | succ limit ih =>
    obtain ⟨ch, hch, hshows⟩ := hq.shows
    have hclosed : ch.closedBy = none := hshows.closedBy.trans hopen
    unfold takeUpTo
    simp only [hch]
    generalize htake : w.takeElement c ch = taken
    obtain ⟨v, w'⟩ := taken
    cases hitems : q.items with
    | nil =>
      cases v with
      | none => rfl
      | some v =>
        obtain ⟨-, admitted, ch', hsome⟩ := takeElement_some hw hch htake
        rw [Channel.take?_empty hclosed (hshows.pop?_eq_none hitems)] at hsome
        cases hsome
    | cons item items =>
      obtain ⟨admitted, ch', hsome, -⟩ := hshows.take? hq.regular.room hopen hitems
      cases v with
      | none =>
        rw [take?_of_takeElement_none hw hch hclosed htake] at hsome
        cases hsome
      | some v =>
        obtain ⟨rfl, admitted', ch'', hsome'⟩ := takeElement_some hw hch htake
        rw [hsome] at hsome'
        simp only [Prod.mk.injEq, Taken.element.injEq] at hsome'
        obtain ⟨⟨rfl, -⟩, -⟩ := hsome'
        have hask : Chronicle w _ (w.ask c ch .poll) :=
          .asked hch (asks_of_nobody (by simp) rfl)
        have hserve : (q.serve .poll).2 = { q with items } := by
          rw [Queue.serve_of_open hopen]
          simp only [Queue.serveOpen, hitems]
        obtain ⟨hq', -, -⟩ := hq.serve hask hw hch (r := .poll) rfl
          (by rw [channel?_ask hch, if_pos rfl]) (fun _ _ _ heq => by cases heq)
          (fun _ heq => by cases heq)
        rw [hserve] at hq'
        have hrest := ih (hask.orderly hw) hq' hopen
        simp only [hrest]
        rfl

end World

/-! ### What is promised of a channel -/

/-- The list that a channel should stand for after some requests. -/
def Channel.listAfter {α σ : Type} [DecidableEq σ] (ch : Channel α σ) (rs : List (Request α σ)) :
    Queue α σ := ({ capacity := ch.capacity } : Queue α σ).after rs

/-- **What is promised of a channel** of which some requests have been made, and that has told
something for them. -/
structure World.Delivers (w : World) (c : ChannelId) (ch : Channel Value SuspensionId)
    (rs : List (Request Value SuspensionId)) (told : List (SuspensionId × Answer Value)) :
    Prop where
  /-- Something can be stored. -/
  room : ch.capacity ≠ some 0
  /-- Nobody asks twice from one place. -/
  distinct : (Queue.askers rs).Nodup
  /-- Only who stands in a line leaves it. -/
  allowed : ({ capacity := ch.capacity } : Queue _ _).Allowed rs
  /-- The channel stands for the list. -/
  shows : ch.Shows (ch.listAfter rs)
  /-- What it holds are the elements of the list: those in the buffer, then those of the offerers
  that have to wait. -/
  contents : ch.contents = (ch.listAfter rs).items.map Prod.snd
  /-- It has told what the list tells. -/
  answers : told = ({ capacity := ch.capacity } : Queue _ _).answers rs
  /-- Its size is the length of the list. -/
  size : ch.size = (ch.listAfter rs).items.length
  /-- Whoever asks waits exactly as long as its place stands in line. -/
  waits : ∀ {r t}, r ∈ rs → r.asker? = some t →
    (w.isLive t = true ↔ t ∈ (ch.listAfter rs).line r.line)
  /-- An offer has to wait exactly as long as its element is at a position for which there is
  no room. -/
  blocked : ∀ {t v}, (t, v) ∈ Queue.offered rs → (w.isLive t = true ↔
    ∃ i, (ch.listAfter rs).items[i]? = some (t, v) ∧ (ch.listAfter rs).fits i = false)
  /-- What is taken without waiting is taken from the head. -/
  taken : ch.closedBy = none → ∀ limit, (w.drain c limit).1 =
    .ok (((ch.listAfter rs).items.take (limit.getD ch.size)).map Prod.snd)
  /-- What takers have been told are elements given away by the list, in that order. -/
  handed : (Queue.elements told).Sublist
    ((({ capacity := ch.capacity } : Queue _ _).delivered rs).map Prod.snd)
  /-- As long as the channel is open no element is lost but those that have been withdrawn. -/
  none_lost : ch.closedBy = none →
    ({ capacity := ch.capacity } : Queue _ _).delivered rs ++ (ch.listAfter rs).items =
      Queue.kept rs (Queue.offered rs)
  /-- Elements are delivered in the order in which they were offered. -/
  in_order : ({ capacity := ch.capacity } : Queue _ _).delivered rs <+:
    Queue.kept rs (Queue.offered rs)
  /-- No element is delivered twice. -/
  once : ((({ capacity := ch.capacity } : Queue _ _).delivered rs).map Prod.fst).Nodup

namespace World

variable {w₀ w : World} {deeds : List Deed} {c : ChannelId} {ch : Channel Value SuspensionId}

/-- Whoever has asked something waits exactly as long as its place stands in line. -/
theorem isLive_iff_mem_line (h : Chronicle w₀ deeds w) (hw₀ : w₀.Orderly)
    (hch : w.store.channel? c = some ch) {q : Queue Value SuspensionId} (hshows : ch.Shows q)
    {r : Request Value SuspensionId} {t : SuspensionId} (hr : r ∈ requestsAt c deeds)
    (ht : r.asker? = some t) : w.isLive t = true ↔ t ∈ q.line r.line := by
  have hw := h.orderly hw₀
  obtain ⟨hstands, place, hplace, hregistration⟩ := h.inLine_of_asker hw₀ hr ht
  constructor
  · intro hlive
    rcases hstands with ⟨ch₁, hch₁, hmem⟩ | hover
    · obtain rfl := Option.some.inj (hch.symm.trans hch₁)
      obtain ⟨e, he, rfl⟩ := List.mem_map.mp hmem
      obtain ⟨place', hplace', hline, -⟩ := hw.lines hch he
      obtain rfl := Option.some.inj (hplace.symm.trans hplace')
      rw [Request.line?_of_registration hregistration, Option.some.injEq, Prod.mk.injEq] at hline
      rw [hline.2]
      exact hshows.mem_line he
    · rw [isLive_of_isOver hover] at hlive
      cases hlive
  · intro hmem
    obtain ⟨e, he, -, rfl⟩ := hshows.mem_entries hmem
    exact hw.isLive_of_entry hch he

/-- **A channel that is made delivers as one list.** -/
theorem delivers_of_chronicle (h : Chronicle w₀ deeds w) (hw₀ : w₀.Orderly)
    (hnone : w₀.store.channel? c = none) (hch : w.store.channel? c = some ch) :
    w.Delivers c ch (requestsAt c deeds) (answersAt c deeds) := by
  rcases h.showsAt_new hw₀ hnone with ⟨hnone', -⟩ | ⟨capacity, hq, htold, hallowed⟩
  · rw [hch] at hnone'
    cases hnone'
  · obtain ⟨ch₁, hch₁, hshows⟩ := hq.shows
    obtain rfl := Option.some.inj (hch.symm.trans hch₁)
    obtain rfl : capacity = ch.capacity := by rw [hshows.capacity, Queue.capacity_after]
    have hroom : ch.capacity ≠ some 0 := by
      rw [hshows.capacity]
      exact hq.regular.room
    have hregular := Queue.regular_new (α := Value) (σ := SuspensionId) hroom
    have hdistinct := (h.nodup_askers hw₀ c).1
    have hwaits := @isLive_iff_mem_line w₀ w deeds c ch h hw₀ hch _ hshows
    refine ⟨hroom, hdistinct, hallowed, hshows, hshows.contents, htold, hshows.size, hwaits, ?_, ?_,
      ?_, ?_, ?_, ?_⟩
    · intro t v hoffered
      obtain ⟨r, hr, hsome⟩ := List.mem_filterMap.mp hoffered
      obtain rfl : r = .offer t v := by
        cases r <;> simp [Request.offered?] at hsome
        rw [hsome.1, hsome.2]
      rw [hwaits hr rfl, Channel.listAfter, ← Queue.mem_blocked_iff]
      refine ⟨fun hmem => ?_, fun hmem => List.mem_map_of_mem (f := Prod.fst) hmem⟩
      obtain ⟨item, hitem, rfl⟩ := List.mem_map.mp hmem
      -- one element only has been offered from the place
      have hitem' := (Queue.items_after_subset _ _ (Queue.mem_items_of_blocked hitem)).resolve_left
        (by simp)
      have hkeys := hdistinct.sublist (Queue.offered_sublist (requestsAt c deeds))
      rwa [← List.inj_on_of_nodup_map hkeys hitem' hoffered rfl]
    · intro hopen limit
      have hitems := takeUpTo_of_showsAt (h.orderly hw₀) hq (hshows.closedBy.symm.trans hopen)
        (min ch.size (limit.getD ch.size))
      have htake : ∀ items : List (SuspensionId × Value), items.length = ch.size → ∀ n,
          items.take (min ch.size n) = items.take n := by
        intro items hlength n
        rw [Nat.min_comm, ← List.take_take, ← hlength, List.take_length]
      simp only [drain, hch, hopen]
      rw [hitems, htake _ hshows.size.symm]
      rfl
    · rw [htold]
      exact Queue.elements_answers _ _
    · intro hopen
      exact Queue.delivered_append_items hregular hallowed hdistinct
        (hshows.closedBy.symm.trans hopen)
    · exact Queue.delivered_in_order hregular hallowed hdistinct
    · exact Queue.nodup_delivered hregular hallowed hdistinct

end World

namespace Workshop

/-- Offers an element to the first channel. -/
def firstOffer (v : Value) : Instruction := .wait (.offer ⟨0⟩ v)

end Workshop

end Fibers
