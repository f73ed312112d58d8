import Fibers.Proofs.Chronicle

/-!
# Operations at channels are requests

The operations at channels pass over those who have stopped waiting.  In an orderly world nobody
who stands in a line has, so an operation is one request or several in a row, and each of them is
told by a chronicle.

## Main definitions

* `World.Chronicles` — some chronicle leads from one world to the other.
* `World.Registers` — what the registration of a wait at a channel does.

## Main results

* `World.registerOffer_registers`, `World.registerTake_registers`,
  `World.registerClose_registers` — the waits.
* `World.chronicles_drain`, `World.chronicles_close` — the operations that do not wait.
-/

namespace Fibers

namespace World

/-- Some chronicle leads from one world to the other. -/
def Chronicles (w w' : World) : Prop := ∃ deeds, Chronicle w deeds w'

variable {w w' w'' : World}

namespace Chronicles

theorem trans (h : w.Chronicles w') (h' : w'.Chronicles w'') : w.Chronicles w'' := by
  obtain ⟨deeds, h⟩ := h
  obtain ⟨deeds', h'⟩ := h'
  exact ⟨_, h.trans h'⟩

theorem orderly (h : w.Chronicles w') (hw : w.Orderly) : w'.Orderly := by
  obtain ⟨deeds, h⟩ := h
  exact h.orderly hw

end Chronicles

/-! ### What leaves no trace -/

namespace Idles

/-- Only what chronicles do not tell changes. -/
theorem of_eq (hs : w'.suspensions = w.suspensions) (hc : w'.store.channels = w.store.channels)
    (hf : w'.store.fibers = w.store.fibers) (ha : w'.store.alarms = w.store.alarms) :
    w.Idles w' where
  suspensions := hs
  channels := hc
  old {fiber r} hr := ⟨r, by rwa [Store.fiber?, hf], rfl, rfl⟩
  new {fiber r'} hnone hr := by
    rw [Store.fiber?, hf] at hr
    rw [Store.fiber?, hr] at hnone
    cases hnone
  files hs := Or.inl (hs.of_store hf ha)

theorem refl (w : World) : w.Idles w := of_eq rfl rfl rfl rfl

/-- The record of a fiber changes in what chronicles do not tell. -/
theorem modifyFiber (w : World) (id : FiberId) {f : FiberRecord → FiberRecord}
    (hfinished : ∀ r, (f r).finished = r.finished)
    (hsuspension : ∀ r, (f r).suspension = r.suspension)
    (hobservers : ∀ r : FiberRecord, w.store.fiber? id = some r → ∀ o ∈ (f r).observers,
      o ∈ r.observers ∨ ∀ s, o.waiter? = some s → w.Plain s) :
    w.Idles (w.modifyFiber id f) where
  suspensions := rfl
  channels := rfl
  old {fiber r} hr := by
    simp only [World.modifyFiber, Store.fiber?_modifyFiber]
    split
    · next heq =>
      subst heq
      exact ⟨f r, by rw [hr, Option.map_some], hfinished r, hsuspension r⟩
    · exact ⟨r, hr, rfl, rfl⟩
  new {fiber r'} hnone hr := by
    simp only [World.modifyFiber, Store.fiber?_modifyFiber] at hr
    split at hr
    · next heq =>
      subst heq
      rw [hnone] at hr
      cases hr
    · rw [hnone] at hr
      cases hr
  files {s} hs := by
    cases hs with
    | alarm hmem heq => exact Or.inl (.alarm hmem heq)
    | @observer fiber r o hr ho hwaiter =>
      simp only [World.modifyFiber, Store.fiber?_modifyFiber] at hr
      split at hr
      · obtain ⟨r₀, hr₀, rfl⟩ := Option.map_eq_some_iff.mp hr
        rcases hobservers r₀ hr₀ o ho with hold | hplain
        · exact Or.inl (.observer hr₀ hold hwaiter)
        · exact Or.inr (hplain s hwaiter)
      · exact Or.inl (.observer hr ho hwaiter)

theorem chronicles (h : w.Idles w') : w.Chronicles w' := ⟨_, .idle h⟩

end Idles

theorem Chronicles.refl (w : World) : w.Chronicles w := (Idles.refl w).chronicles

/-- Only what chronicles do not tell changes. -/
theorem Chronicles.unrelated (hs : w'.suspensions = w.suspensions)
    (hc : w'.store.channels = w.store.channels) (hf : w'.store.fibers = w.store.fibers)
    (ha : w'.store.alarms = w.store.alarms) : w.Chronicles w' :=
  (Idles.of_eq hs hc hf ha).chronicles

/-- Completing a wait that does not end at a channel. -/
theorem chronicles_resume {s : SuspensionId} (hs : w.Plain s) (outcome : Outcome) :
    w.Chronicles (w.resume s outcome).2 := by
  cases hlive : w.isLive s with
  | true => exact ⟨_, .completed outcome hs hlive⟩
  | false =>
    rw [resume_of_not_live hlive]
    exact .refl w

/-! ### Channels -/

/-- Everybody who stands in a line is still there. -/
theorem Orderly.isLive_of_entry (h : w.Orderly) {c : ChannelId}
    {ch : Channel Value SuspensionId} (hch : w.store.channel? c = some ch)
    {e : Entry SuspensionId} (he : e ∈ ch.entries) : w.isLive e.place = true := by
  obtain ⟨p, hp, -, hstate⟩ := h.lines hch he
  rw [isLive, hp, Option.map_some]
  rcases hstate with hstate | ⟨run, hstate⟩ <;> rw [hstate]

end World

namespace Channel

variable {α σ : Type} {ch : Channel α σ} {live : σ → Bool}

theorem dropWhile_of_all {β : Type} {p : β → Bool} {l : List β} (h : ∀ a ∈ l, p a = true) :
    l.dropWhile (fun a => !p a) = l := by
  cases l with
  | nil => rfl
  | cons a l => simp [h a List.mem_cons_self]

/-- As long as everybody in line is there, nobody is passed over. -/
theorem nextTaker_of_live (h : ∀ e ∈ ch.entries, live e.place = true) :
    ch.nextTaker live = ch.nextTaker present := by
  have htakers : ∀ e ∈ ch.takers, live e.2 = true := fun e he =>
    h ⟨.takers, e.1, e.2⟩ (List.mem_append_left _ (List.mem_append_left _ (List.mem_map_of_mem he)))
  have hpresent : ch.takers.dropWhile (fun e => !present e.2) = ch.takers :=
    dropWhile_of_all (p := fun e => present e.2) fun _ _ => rfl
  unfold nextTaker
  rw [dropWhile_of_all htakers, hpresent]

theorem moveUp_of_live (h : ∀ e ∈ ch.entries, live e.place = true) :
    ch.moveUp live = ch.moveUp present := by
  have hofferers : ∀ e ∈ ch.offerers, live e.2.2 = true := fun e he =>
    h ⟨.offerers, e.1, e.2.2⟩
      (List.mem_append_left _ (List.mem_append_right _ (List.mem_map_of_mem he)))
  have hpresent : ch.offerers.dropWhile (fun e => !present e.2.2) = ch.offerers :=
    dropWhile_of_all (p := fun e => present e.2.2) fun _ _ => rfl
  unfold moveUp
  rw [dropWhile_of_all hofferers, hpresent]

theorem offer?_of_live (h : ∀ e ∈ ch.entries, live e.place = true) (a : α) :
    ch.offer? live a = ch.offer? present a := by
  unfold offer?
  rw [nextTaker_of_live h]

theorem take?_of_live (h : ∀ e ∈ ch.entries, live e.place = true) :
    ch.take? live = ch.take? present := by
  unfold take?
  cases hclosed : ch.closedBy with
  | some source => rfl
  | none =>
    cases hpop : ch.buffer.pop? with
    | none => rfl
    | some popped =>
      obtain ⟨a, buffer⟩ := popped
      have hmove : ({ ch with buffer } : Channel α σ).moveUp live =
          ({ ch with buffer } : Channel α σ).moveUp present := moveUp_of_live h
      rw [hclosed] at hmove
      simp only [hmove]

end Channel

/-- An entry that is changed into itself leaves the table as it is. -/
theorem Numbered.modify_of_get? {α : Type} {t : Numbered α} {n : Nat} {a : α} {f : α → α}
    (h : t.get? n = some a) (hf : f a = a) : t.modify n f = t := by
  unfold get? at h
  unfold modify
  split at h
  · next hle =>
    have hentries : t.entries.modify (n - t.first) f = t.entries := by
      apply Array.ext_getElem?
      intro i
      rw [Array.getElem?_modify]
      split
      · next heq => rw [← heq, h, Option.map_some, hf]
      · rfl
    rw [if_pos hle, hentries]
  · cases h

namespace World

variable {w w' w'' : World} {c : ChannelId} {ch : Channel Value SuspensionId}

theorem tell_append (w : World) (told told' : List (SuspensionId × Answer Value)) :
    w.tell (told ++ told') = (w.tell told).tell told' := List.foldl_append

theorem tell_map (w : World) (places : List SuspensionId) (answer : Answer Value) :
    w.tell (places.map (·, answer)) = w.resumeAll places answer.outcome := by
  rw [tell, List.foldl_map]
  rfl

/-- A channel that does not change stays where it is. -/
theorem setChannel_self (hch : w.store.channel? c = some ch) : w.setChannel c ch = w := by
  rw [setChannel, Store.setChannel, Numbered.modify_of_get? hch rfl]

/-- Asking a channel that stays as it is tells something only. -/
theorem ask_of_same (hch : w.store.channel? c = some ch) {request : Request Value SuspensionId}
    {told : List (SuspensionId × Answer Value)} (hserve : ch.serve request = (told, ch)) :
    w.ask c ch request = w.tell told := by
  rw [ask, hserve, setChannel_self hch]

/-- Taking an element of a channel is polling it. -/
theorem takeElement_some (hw : w.Orderly) (hch : w.store.channel? c = some ch) {v : Value}
    (h : w.takeElement c ch = (some v, w')) :
    w' = w.ask c ch .poll ∧ ∃ admitted ch', ch.take? Channel.present = (.element v admitted, ch') := by
  unfold takeElement at h
  rw [Channel.take?_of_live fun e he => hw.isLive_of_entry hch he] at h
  split at h
  · next v' admitted ch' heq =>
    simp only [Prod.mk.injEq, Option.some.injEq] at h
    obtain ⟨rfl, rfl⟩ := h
    refine ⟨?_, admitted, ch', heq⟩
    have hserve : ch.serve .poll = (admitted.toList.map (·, .done), ch') := by
      simp [Channel.serve, heq]
    rw [ask, hserve, tell_map]
    rfl
  · cases h

theorem takeElement_none (h : w.takeElement c ch = (none, w')) : w' = w := by
  unfold takeElement at h
  split at h
  · cases h
  · exact (Prod.mk.inj h).2.symm

/-- Taking no element: the channel is open, and has none. -/
theorem take?_of_takeElement_none (hw : w.Orderly) (hch : w.store.channel? c = some ch)
    (hopen : ch.closedBy = none) (h : w.takeElement c ch = (none, w')) :
    ch.take? Channel.present = (.nothing, ch) := by
  unfold takeElement at h
  rw [Channel.take?_of_live fun e he => hw.isLive_of_entry hch he] at h
  cases hpop : ch.buffer.pop? with
  | none => exact Channel.take?_empty hopen hpop
  | some popped =>
    rw [Channel.take?_present hopen hpop] at h
    cases hofferers : ch.offerers <;> simp [hofferers] at h

/-- The registration of a wait asks something of a channel: it is answered at once, or the place
comes to stand in a line. -/
structure Registers (w : World) (c : ChannelId) (ch : Channel Value SuspensionId)
    (request : Request Value SuspensionId) (s : SuspensionId) (result : Canceler × World) :
    Prop where
  world : result.2 = w.ask c ch request
  waits : (result.1 = .nothing ∧ s ∈ (ch.serve request).1.map Prod.fst) ∨
    ∃ ticket, result.1 = .leave c request.line ticket ∧
      ⟨request.line, ticket, s⟩ ∈ (ch.serve request).2.entries

theorem registerOffer_registers (hw : w.Orderly) (hch : w.store.channel? c = some ch) (v : Value)
    (s : SuspensionId) : Registers w c ch (.offer s v) s (w.registerOffer c v s) := by
  have hoffer := Channel.offer?_of_live (fun e he => hw.isLive_of_entry hch he) v
  unfold registerOffer
  rw [hch]
  simp only [hoffer]
  generalize hresult : ch.offer? Channel.present v = result
  obtain ⟨offered, ch'⟩ := result
  cases offered with
  | closed source =>
    have hserve : ch.serve (.offer s v) = ([(s, .closed source)], ch) := by
      simp [Channel.serve, hresult]
    refine ⟨?_, Or.inl ⟨rfl, by simp [hserve]⟩⟩
    rw [ask_of_same hch hserve]
    rfl
  | handedTo taker =>
    have hserve : ch.serve (.offer s v) = ([(taker, .element v), (s, .done)], ch') := by
      simp [Channel.serve, hresult]
    refine ⟨?_, Or.inl ⟨rfl, by simp [hserve]⟩⟩
    rw [ask, hserve]
    rfl
  | stored =>
    have hserve : ch.serve (.offer s v) = ([(s, .done)], ch') := by
      simp [Channel.serve, hresult]
    refine ⟨?_, Or.inl ⟨rfl, by simp [hserve]⟩⟩
    rw [ask, hserve]
    rfl
  | full =>
    have hserve : ch.serve (.offer s v) = ([], (ch'.enqueueOfferer v s).2) := by
      simp [Channel.serve, hresult]
    refine ⟨?_, Or.inr ⟨_, rfl, ?_⟩⟩
    · rw [ask, hserve]
      rfl
    · simp [hserve, Channel.enqueueOfferer, Channel.entries, Request.line]

theorem registerTake_registers (hw : w.Orderly) (hch : w.store.channel? c = some ch)
    (t : SuspensionId) : Registers w c ch (.take t) t (w.registerTake c t) := by
  unfold registerTake
  rw [hch]
  simp only
  cases hclosed : ch.closedBy with
  | some source =>
    have hserve : ch.serve (.take t) = ([(t, .closed source)], ch) := by
      simp [Channel.serve, Channel.take?_closed hclosed]
    refine ⟨?_, Or.inl ⟨rfl, by simp [hserve]⟩⟩
    rw [ask_of_same hch hserve]
    rfl
  | none =>
    cases helement : w.takeElement c ch with
    | mk taken w' =>
      cases taken with
      | none =>
        have htake := take?_of_takeElement_none hw hch hclosed helement
        have hserve : ch.serve (.take t) = ([], (ch.enqueueTaker t).2) := by
          simp [Channel.serve, htake]
        obtain rfl := takeElement_none helement
        refine ⟨?_, Or.inr ⟨_, rfl, ?_⟩⟩
        · rw [ask, hserve]
          rfl
        · simp [hserve, Channel.enqueueTaker, Channel.entries, Request.line]
      | some v =>
        obtain ⟨rfl, admitted, ch', htake⟩ := takeElement_some hw hch helement
        have hserve : ch.serve (.take t) =
            (admitted.toList.map (·, .done) ++ [(t, .element v)], ch') := by
          simp [Channel.serve, htake]
        have hpoll : ch.serve .poll = (admitted.toList.map (·, .done), ch') := by
          simp [Channel.serve, htake]
        refine ⟨?_, Or.inl ⟨rfl, by simp [hserve]⟩⟩
        rw [ask, ask, hserve, hpoll, tell_append]
        rfl

theorem registerClose_registers (hch : w.store.channel? c = some ch) (s : SuspensionId) :
    Registers w c ch (.watch s) s (w.registerClose c s) := by
  unfold registerClose
  rw [hch]
  simp only
  cases hclosed : ch.isClosed with
  | true =>
    have hserve : ch.serve (.watch s) = ([(s, .done)], ch) := by
      simp [Channel.serve, hclosed]
    refine ⟨?_, Or.inl ⟨rfl, by simp [hserve]⟩⟩
    rw [ask_of_same hch hserve]
    rfl
  | false =>
    have hserve : ch.serve (.watch s) = ([], (ch.enqueueWatcher s).2) := by
      simp [Channel.serve, hclosed]
    refine ⟨?_, Or.inr ⟨_, rfl, ?_⟩⟩
    · rw [ask, hserve]
      rfl
    · simp [hserve, Channel.enqueueWatcher, Channel.entries, Request.line]

/-- Who is nobody can ask anything at any time. -/
theorem asks_of_nobody {request : Request Value SuspensionId}
    (hstays : ∀ line ticket s, request ≠ .leave line ticket s) (hasker : request.asker? = none) :
    w.Asks c ch request where
  stays := hstays
  asker hs := by
    rw [hasker] at hs
    cases hs
  fresh hs := by
    rw [hasker] at hs
    cases hs

theorem chronicles_takeElement (hw : w.Orderly) (hch : w.store.channel? c = some ch) :
    w.Chronicles (w.takeElement c ch).2 := by
  generalize htake : w.takeElement c ch = taken
  obtain ⟨v, w'⟩ := taken
  cases v with
  | none =>
    rw [takeElement_none htake]
    exact .refl w
  | some v =>
    rw [(takeElement_some hw hch htake).1]
    exact ⟨_, .asked hch (asks_of_nobody (by simp) rfl)⟩

theorem chronicles_takeUpTo (hw : w.Orderly) (c : ChannelId) (limit : Nat) :
    w.Chronicles (w.takeUpTo c limit).2 := by
  induction limit generalizing w with
  | zero => exact .refl w
  | succ limit ih =>
    unfold takeUpTo
    split
    · exact .refl w
    · next ch hch =>
      have htake := chronicles_takeElement hw hch
      split
      · next w' heq => rwa [heq] at htake
      · next v w' heq =>
        rw [heq] at htake
        exact htake.trans (ih (htake.orderly hw))

/-- Elements are taken one after the other. -/
theorem chronicles_drain (hw : w.Orderly) (c : ChannelId) (limit : Option Nat) :
    w.Chronicles (w.drain c limit).2 := by
  unfold drain
  split
  · exact .refl w
  · split
    · exact .refl w
    · exact chronicles_takeUpTo hw c _

theorem close_eq (hch : w.store.channel? c = some ch) (source : FiberId) :
    w.close c source = w.ask c ch (.close source) := by
  unfold World.close
  rw [hch, Option.bind_some]
  cases hclose : ch.close source with
  | none =>
    have hserve : ch.serve (.close source) = ([], ch) := by simp [Channel.serve, hclose]
    rw [ask_of_same hch hserve]
    rfl
  | some closed =>
    obtain ⟨closing, ch'⟩ := closed
    have hserve : ch.serve (.close source) =
        (closing.refused.map (·, .closed source) ++ closing.notified.map (·, .done), ch') := by
      simp [Channel.serve, hclose]
    rw [ask, hserve, tell_append, tell_map, tell_map]
    rfl

/-- A channel is closed. -/
theorem chronicles_close (w : World) (c : ChannelId) (source : FiberId) :
    w.Chronicles (w.close c source) := by
  cases hch : w.store.channel? c with
  | none =>
    have hsame : w.close c source = w := by simp [World.close, hch]
    rw [hsame]
    exact .refl w
  | some ch =>
    rw [close_eq hch]
    exact ⟨_, .asked hch (asks_of_nobody (by simp) rfl)⟩

end World

end Fibers
