import Fibers.Proofs.Delivery

/-!
# Interrupted waits at channels

Whoever is interrupted while waiting at a channel might as well never have asked: nothing has been
told at the place, the element offered from it is never delivered, and the channel serves all
others as if nothing had been asked there.

This is about a wait that is ended by the interruption.  A fiber that has been served is parked no
longer, although it has not run since.  If it is interrupted then, the element that it has been
told is dropped, and nobody gets it.

## Main definitions

* `World.Forgets` — what becomes of interrupted waits.
* `EndsInterrupted` — a wait that ends with the interruption of the fiber.

## Main results

* `Workshop.Run.forgets` — **an interrupted wait leaves no trace.**
* `Workshop.Run.not_every_interrupted_take_forgotten` — a fiber that is interrupted after it has
  been served, and before it has run, loses an element.
-/

namespace Fibers

namespace Queue

variable {α σ : Type} [DecidableEq σ]

/-- Only what has been offered is given away. -/
theorem delivered_subset (q : Queue α σ) (rs : List (Request α σ)) {item : σ × α}
    (h : item ∈ q.delivered rs) : item ∈ q.items ∨ item ∈ offered rs := by
  have hdelivery : ∀ {q : Queue α σ} {r}, q.delivery? r = some item →
      item ∈ q.items ∨ r.offered? = some item := by
    intro q r hsome
    unfold delivery? at hsome
    split at hsome
    · split at hsome
      · cases hsome
      · exact Or.inr hsome
    · exact Or.inl (List.mem_of_mem_head? hsome)
    · exact Or.inl (List.mem_of_mem_head? hsome)
    · cases hsome
  induction rs generalizing q with
  | nil => cases h
  | cons r rs ih =>
    have hfirst : r.offered? = some item → item ∈ offered (r :: rs) := fun hsome =>
      List.mem_filterMap.mpr ⟨r, List.mem_cons_self, hsome⟩
    rcases List.mem_append.mp h with hone | hrest
    · rcases hdelivery (Option.mem_toList.mp hone) with hitem | hnew
      · exact Or.inl hitem
      · exact Or.inr (hfirst hnew)
    · rcases ih _ hrest with hitem | hoffered
      · rcases q.items_serve_subset r hitem with hold | hnew
        · exact Or.inl hold
        · exact Or.inr (hfirst hnew)
      · obtain ⟨r', hr', hsome⟩ := List.mem_filterMap.mp hoffered
        exact Or.inr (List.mem_filterMap.mpr ⟨r', List.mem_cons_of_mem _ hr', hsome⟩)

theorem not_mem_offered_without (p : σ) (rs : List (Request α σ)) (a : α) :
    (p, a) ∉ offered (without p rs) := by
  intro hmem
  obtain ⟨r, hr, hsome⟩ := List.mem_filterMap.mp hmem
  obtain ⟨-, hconcerns⟩ := List.mem_filter.mp hr
  have hasker : r.asker? = some p := by
    cases r <;> simp [Request.offered?] at hsome
    rw [Request.asker?, hsome.1]
  rw [Request.concerns_iff.mpr (Or.inl hasker)] at hconcerns
  cases hconcerns

end Queue

namespace Chronicle

variable {w w' : World} {deeds : List Deed} {c : ChannelId} {t : SuspensionId}

theorem ends_pos_of_interrupted {source : FiberId} (h : .interrupted t source ∈ deeds) :
    0 < deeds.countP (·.ends t) :=
  List.countP_pos_iff.mpr ⟨_, h, decide_eq_true rfl⟩

/-- A wait that is interrupted has not been over, and is over afterwards. -/
theorem isOver_of_interrupted (h : Chronicle w deeds w') (hw : w.Orderly) {source : FiberId}
    (hdeed : .interrupted t source ∈ deeds) : w.isOver t = false ∧ w'.isOver t = true := by
  have hends := h.countP_ends_le hw t
  have hpos := ends_pos_of_interrupted hdeed
  have hmost : (w'.isOver t).toNat ≤ 1 := Bool.toNat_le _
  constructor
  · cases hover : w.isOver t with
    | false => rfl
    | true =>
      rw [hover, Bool.toNat_true] at hends
      omega
  · cases hover : w'.isOver t with
    | true => rfl
    | false =>
      rw [hover, Bool.toNat_false] at hends
      omega

/-- **Whoever is interrupted while waiting at a channel leaves its line.** -/
theorem leaves_of_interrupted (h : Chronicle w deeds w') (hw : w.Orderly) {source : FiberId}
    (hdeed : .interrupted t source ∈ deeds)
    (hasked : w.InLine c t ∨ t ∈ Queue.askers (requestsAt c deeds)) :
    ∃ line ticket, .leave line ticket t ∈ requestsAt c deeds := by
  induction h with
  | idle _ | opened _ _ _ _ | parked _ _ _ _ _ _ | vacated _ _ _ => cases hdeed
  | made _ | completed _ _ _ | finished _ _ _ => cases List.mem_singleton.mp hdeed
  | asked _ _ =>
    rcases List.mem_cons.mp hdeed with heq | hmem
    · cases heq
    · obtain ⟨_, -, heq⟩ := List.mem_map.mp hmem
      cases heq
  | @interrupted w s place run onInterrupt deeds by_ hplace hstate hstays h' ih =>
    have hw' : (w.setSuspension s .over).Orderly :=
      hw.vacate hplace rfl (hw.out_of_waiting hplace hstate hstays)
    rw [requestsAt_interrupted] at hasked ⊢
    by_cases heq : t = s
    · -- it stands in no line, and has not asked anything after that
      subst heq
      rcases hasked with ⟨ch, hch, hmem⟩ | hmem
      · obtain ⟨e, he, hsame⟩ := List.mem_map.mp hmem
        exact absurd hsame (hw.out_of_waiting hplace hstate hstays hch he)
      · refine absurd (Or.inl (World.begun_of_isOver ?_)) ((h'.nodup_askers hw' c).2 t hmem).1
        rw [World.isOver_setSuspension hplace, if_pos rfl]
        rfl
    · refine ih hw' ?_ hasked
      rcases List.mem_cons.mp hdeed with hfirst | hmem
      · exact absurd (Deed.interrupted.inj hfirst).1 heq
      · rcases List.mem_cons.mp hmem with hsecond | hrest
        · cases hsecond
        · exact hrest
  | @left w s place run d ch line ticket by_ hplace hstate hch =>
    rw [requestsAt_left] at hasked ⊢
    obtain rfl : t = s := by
      simp only [List.mem_cons, List.not_mem_nil, or_false, reduceCtorEq] at hdeed
      exact (Deed.interrupted.inj hdeed).1
    by_cases hd : d = c
    · rw [if_pos hd]
      exact ⟨line, ticket, List.mem_singleton_self _⟩
    · rw [if_neg hd] at hasked
      rcases hasked with ⟨ch', hch', hmem⟩ | hmem
      · -- it stands in a line of one channel only
        obtain ⟨e, he, heq⟩ := List.mem_map.mp hmem
        obtain ⟨p, hp, -, hwait⟩ := hw.lines hch' he
        rw [heq] at hp
        obtain rfl := Option.some.inj (hplace.symm.trans hp)
        rw [hstate] at hwait
        rcases hwait with hwait | ⟨run', hwait⟩
        · cases hwait
        · simp only [SuspensionState.waiting.injEq, Canceler.leave.injEq] at hwait
          exact absurd hwait.2.1 hd
      · cases hmem
  | @trans w₁ w₂ w₃ deeds deeds' h h' ih ih' =>
    rw [requestsAt_append] at hasked ⊢
    rw [Queue.askers, List.filterMap_append] at hasked
    have hw' := h.orderly hw
    rcases List.mem_append.mp hdeed with hfirst | hsecond
    · -- after the interruption nothing is asked from the place
      have hover := (h.isOver_of_interrupted hw hfirst).2
      have hasked' : w₁.InLine c t ∨ t ∈ Queue.askers (requestsAt c deeds) := by
        rcases hasked with hline | hmem
        · exact Or.inl hline
        · rcases List.mem_append.mp hmem with hmem | hmem
          · exact Or.inr hmem
          · exact absurd (Or.inl (World.begun_of_isOver hover)) ((h'.nodup_askers hw' c).2 t hmem).1
      obtain ⟨line, ticket, hleave⟩ := ih hw hfirst hasked'
      exact ⟨line, ticket, List.mem_append_left _ hleave⟩
    · -- before it the wait has not been over
      have hlive := (h'.isOver_of_interrupted hw' hsecond).1
      have hstands : ∀ {p : Prop}, (p ∨ w₂.isOver t = true) → p := fun hor =>
        hor.resolve_right fun hover => by rw [hlive] at hover; cases hover
      have hasked' : w₂.InLine c t ∨ t ∈ Queue.askers (requestsAt c deeds') := by
        rcases hasked with hline | hmem
        · exact Or.inl (hstands (h.inLine hw hline))
        · rcases List.mem_append.mp hmem with hmem | hmem
          · obtain ⟨r, hr, hasker⟩ := List.mem_filterMap.mp hmem
            exact Or.inl (hstands (h.inLine_of_asker hw hr hasker).1)
          · exact Or.inr hmem
      obtain ⟨line, ticket, hleave⟩ := ih' hw' hsecond hasked'
      exact ⟨line, ticket, List.mem_append_right _ hleave⟩

end Chronicle

/-! ### What becomes of interrupted waits -/

/-- What becomes of the waits at a channel that are interrupted, and of the others. -/
structure World.Forgets (w : World) (c : ChannelId) (ch : Channel Value SuspensionId)
    (deeds : List Deed) : Prop where
  /-- Whoever is interrupted while waiting might as well never have asked. -/
  forgotten : ∀ {t source}, .interrupted t source ∈ deeds →
    t ∈ Queue.askers (requestsAt c deeds) →
      Queue.Agrees ({ capacity := ch.capacity } : Queue _ _) { capacity := ch.capacity }
        (requestsAt c deeds) (Queue.without t (requestsAt c deeds))
  /-- Its element is never delivered. -/
  undelivered : ∀ {t source v}, .interrupted t source ∈ deeds →
    (t, v) ∈ Queue.offered (requestsAt c deeds) →
      (t, v) ∉ ({ capacity := ch.capacity } : Queue _ _).delivered (requestsAt c deeds)
  /-- Whoever has been told something is not interrupted while waiting. -/
  untold : ∀ {t answer source}, (t, answer) ∈ answersAt c deeds → .interrupted t source ∉ deeds
  /-- An element that has been told has been given away. -/
  given : ∀ {t v}, (t, .element v) ∈ answersAt c deeds →
    v ∈ (({ capacity := ch.capacity } : Queue _ _).delivered (requestsAt c deeds)).map Prod.snd
  /-- A request for the interruption of a fiber that is parked in a line interrupts the wait, if
  that is allowed. -/
  parked : ∀ {t p run onInterrupt}, w.suspension? t = some p →
    p.state = .waiting run onInterrupt → p.interruptible = true → w.InLine c t → ∀ source,
      ∃ first line ticket,
        Chronicle w [.interrupted t first, .cancelled t, .asked c (.leave line ticket t)]
          (w.interrupt p.fiber source)

namespace World

variable {w : World}

/-- A request for interruption finds a fiber parked in a line. -/
theorem chronicle_interrupt_of_inLine (hw : w.Orderly) {c : ChannelId} {t : SuspensionId}
    {p : Suspension} {run : RunState} {onInterrupt : Canceler} (hp : w.suspension? t = some p)
    (hstate : p.state = .waiting run onInterrupt) (hallowed : p.interruptible = true)
    (hline : w.InLine c t) (source : FiberId) :
    ∃ first line ticket,
      Chronicle w [.interrupted t first, .cancelled t, .asked c (.leave line ticket t)]
        (w.interrupt p.fiber source) := by
  obtain ⟨ch, hch, hmem⟩ := hline
  obtain ⟨e, he, rfl⟩ := List.mem_map.mp hmem
  -- it is going to leave the line
  obtain ⟨p', hp', -, hwait⟩ := hw.lines hch he
  obtain rfl := Option.some.inj (hp.symm.trans hp')
  have hleave : p.state = .waiting run (.leave c e.line e.ticket) := by
    rcases hwait with hwait | ⟨run', hwait⟩
    · rw [hstate] at hwait
      cases hwait
    · rw [hstate, SuspensionState.waiting.injEq] at hwait
      rw [hstate, hwait.2]
  obtain ⟨r, hr, hs⟩ := hw.recorded hp hleave
  let w' := w.recordInterruptor p.fiber source
  have hidle : w.Idles w' := w.idles_recordInterruptor p.fiber source
  obtain ⟨r', hr', -, hs'⟩ := hidle.old hr
  have hp' : w'.suspension? e.place = some p := hp
  have hch' : w'.store.channel? c = some ch := hch
  have hinterrupt : w.interrupt p.fiber source =
      (((w'.setSuspension e.place .over).setChannel c (ch.leave e.line e.ticket)).schedule p.fiber
        run (.interrupt (w'.store.interruptor p.fiber))) := by
    have hplace : (w'.store.fiber? p.fiber).bind FiberRecord.suspension = some e.place := by
      rw [hr', Option.bind_some, hs', hs]
    have hint : w'.isInterruptible e.place = true := by
      rw [isInterruptible, hp', Option.any_some, hallowed]
    have hch'' : (w'.setSuspension e.place .over).store.channel? c = some ch := hch
    simp only [interrupt]
    rw [show w.recordInterruptor p.fiber source = w' from rfl]
    simp only [hplace, if_pos hint, interruptAt, hp', Option.map_some, hleave, cancel, hch'']
    rfl
  rw [hinterrupt]
  exact ⟨_, _, _, (Chronicle.idle hidle).trans (.left _ hp' hleave hch')⟩

end World

theorem mem_deeds_of_answersAt {c : ChannelId} {deeds : List Deed} {t : SuspensionId}
    {answer : Answer Value} (h : (t, answer) ∈ answersAt c deeds) : .answered c t answer ∈ deeds := by
  obtain ⟨deed, hdeed, hsome⟩ := List.mem_filterMap.mp h
  cases deed with
  | answered d s a =>
    simp only [Deed.answerAt?] at hsome
    split at hsome
    · next heq =>
      obtain ⟨rfl, rfl⟩ := Prod.mk.inj (Option.some.inj hsome)
      exact heq ▸ hdeed
    · cases hsome
  | completed _ _ | interrupted _ _ | cancelled _ | made _ | asked _ _ | finished _ _ => cases hsome

namespace Workshop

/-! ### A taker that is parked, and then served -/

namespace ServedTake

/-- A world with one channel. -/
def scene (fibers : Array FiberRecord) (ch : Channel Value SuspensionId)
    (places : Array Suspension) (ready : List Task) : World where
  store := { Store.init 0 with fibers := ⟨1, fibers⟩, channels := ⟨0, #[ch]⟩ }
  suspensions := ⟨0, places⟩
  tasks := ⟨[], ready⟩

/-- The element. -/
def element : Value := .bool true

/-- What the taker does. -/
def taking : Instruction := .wait (.take ⟨0⟩)

/-- What the offerer does. -/
def offering : Instruction := .wait (.offer ⟨0⟩ element)

/-- The beginning of both. -/
def start : RunState := .start .unit true

/-- The place where the taker waits. -/
def takerAt (state : SuspensionState) : Suspension := ⟨⟨1⟩, true, .take ⟨0⟩, state⟩

/-- The place where the offerer waits. -/
def offererAt (state : SuspensionState) : Suspension := ⟨⟨2⟩, true, .offer ⟨0⟩ element, state⟩

/-- The state of the taker while it is parked. -/
def parkedState : SuspensionState := .waiting start (.leave ⟨0⟩ .takers 1)

/-- What is known of the taker when it has begun to wait. -/
def taker : FiberRecord := { suspension := some ⟨0⟩ }

/-- The channel with the taker in line. -/
def line : Channel Value SuspensionId := { takers := [(1, ⟨0⟩)], tickets := 1 }

/-- The taker has been started. -/
def begun (ready : List Task) : World := scene #[{}] {} #[] ready

/-- The taker is parked. -/
def parked : World := scene #[taker] line #[takerAt parkedState] []

/-- The offerer has been started. -/
def offered (ready : List Task) : World := scene #[taker, {}] line #[takerAt parkedState] ready

/-- The taker has been served. -/
def served (taker offerer : FiberRecord) (ready : List Task) : World :=
  scene #[taker, offerer] { tickets := 1 } #[takerAt .over, offererAt .over] ready

/-- The taker as it is ready to go on with the element. -/
def woken : Task := ⟨⟨1⟩, start, .value element⟩

/-- What is known of the offerer while it goes on. -/
def offerer : FiberRecord := { suspension := some ⟨1⟩ }

/-- What is known of the offerer when it has finished. -/
def finishedOfferer : FiberRecord := { exit := some (.done .unit), finished := true }

/-- What is known of the taker when it has been interrupted. -/
def interruptedTaker : FiberRecord := { taker with interruptors := [⟨2⟩] }

/-- What is known of the taker when it has finished. -/
def finishedTaker : FiberRecord :=
  { interruptors := [⟨2⟩], exit := some (.halt (.of (.interrupt ⟨2⟩))), finished := true }

/-- In the end both have finished. -/
def final : World := served finishedTaker finishedOfferer []

theorem chronicle_parked :
    Chronicle (.init 0) [.made ⟨0⟩, .asked ⟨0⟩ (.take ⟨0⟩)] parked := by
  have hmade : Chronicle (.init 0) [.made ⟨0⟩] (scene #[] {} #[] []) := .made (by decide)
  have hbegun : Chronicle (scene #[] {} #[] []) [] (begun []) :=
    .idle (World.idles_push _ rfl rfl (by simp))
  let opened := ((begun []).newSuspension ⟨1⟩ true (.take ⟨0⟩)).2
  have hopened : Chronicle (begun []) [] opened :=
    .opened _ _ _ (World.InHand.absent ⟨by decide, rfl⟩)
  let asked := opened.ask ⟨0⟩ {} (.take ⟨0⟩)
  have hasks : opened.Asks ⟨0⟩ {} (.take ⟨0⟩) :=
    World.asks_of_registering (p := takerAt .registering) rfl rfl (by decide) rfl rfl
  have hasked : Chronicle opened [.asked ⟨0⟩ (.take ⟨0⟩)] asked := .asked rfl hasks
  have hbefore := hmade.trans (hbegun.trans (hopened.trans hasked))
  have horderly : asked.Orderly := hbefore.orderly (World.orderly_init 0)
  have hline : asked.store.channel? ⟨0⟩ = some line := rfl
  have hfits : asked.Fits ⟨0⟩ (.leave ⟨0⟩ .takers 1) := horderly.fits_of_entry hline (by decide)
  have hparked : Chronicle asked [] parked :=
    @Chronicle.parked asked ⟨0⟩ (takerAt .registering) taker start _ rfl rfl rfl rfl hfits
  exact hbefore.trans hparked

end ServedTake

open ServedTake in
/-- The taker is parked first. -/
theorem Run.of_parked {record : List (FiberId × Event)} {s : Workshop}
    (h : Run 8 ⟨parked, []⟩ record s) :
    Run 8 (init 0) ((⟨1⟩, .iterated (begun []) start (.eval taking)) :: record) s := by
  have hmade : Move 8 (init 0) [] ⟨scene #[] {} #[] [], []⟩ := .act (Action.newChannel none)
  have hstart : Move 8 ⟨scene #[] {} #[] [], []⟩ [] ⟨begun [⟨⟨1⟩, start, .eval taking⟩], []⟩ :=
    .start taking .unit none
  have hpick : Move 8 ⟨begun [⟨⟨1⟩, start, .eval taking⟩], []⟩ []
      ⟨begun [], [⟨⟨1⟩, start, .eval taking, 0⟩]⟩ :=
    @Move.pick_first 8 _ [] .empty ⟨⟨1⟩, start, .eval taking⟩ rfl
  have hpark : Move 8 ⟨begun [], [⟨⟨1⟩, start, .eval taking, 0⟩]⟩
      [(⟨1⟩, .iterated (begun []) start (.eval taking))] ⟨parked, []⟩ := .advance_one _ _ _
  exact .move hmade (.move hstart (.move hpick (.move hpark h)))

/-! ### Runs -/

/-- **An interrupted wait leaves no trace**, in every run and whenever the interruption ends the
wait: there is a chronicle of the run, and in every chronicle of it those who have been interrupted
while waiting are forgotten. -/
theorem Run.forgets {budget minted : Nat} {s : Workshop} {record : List (FiberId × Event)}
    (h : Run budget (init minted) record s) :
    (∃ deeds, Chronicle (.init minted) deeds s.world) ∧
      ∀ deeds, Chronicle (.init minted) deeds s.world → ∀ {c ch},
        s.world.store.channel? c = some ch → s.world.Forgets c ch deeds := by
  have hinit := World.orderly_init minted
  refine ⟨h.exists_chronicle (valid_init minted) hinit, fun deeds hdeeds c ch hch => ?_⟩
  have hdelivers := World.delivers_of_chronicle (c := c) hdeeds hinit
    (by simp [World.init, Store.init, Store.channel?, Numbered.get?]) hch
  have hnew := Queue.regular_new (α := Value) (σ := SuspensionId) hdelivers.room
  have hagrees : ∀ {t source}, .interrupted t source ∈ deeds →
      t ∈ Queue.askers (requestsAt c deeds) →
        Queue.Agrees ({ capacity := ch.capacity } : Queue _ _) { capacity := ch.capacity }
          (requestsAt c deeds) (Queue.without t (requestsAt c deeds)) := by
    intro t source hdeed hasked
    obtain ⟨line, ticket, hleave⟩ := hdeeds.leaves_of_interrupted hinit hdeed (Or.inr hasked)
    exact Queue.agrees_without hnew hdelivers.allowed hdelivers.distinct (by simp [Queue.places])
      hleave
  refine ⟨hagrees, ?_, ?_, ?_, ?_⟩
  · intro t source v hdeed hoffered hdelivered
    rw [← (hagrees hdeed (Queue.mem_askers_of_offered hoffered)).delivered] at hdelivered
    rcases Queue.delivered_subset _ _ hdelivered with hitem | hmem
    · cases hitem
    · exact Queue.not_mem_offered_without t (requestsAt c deeds) v hmem
  · intro t answer source htold hdeed
    -- the wait would have ended twice
    obtain ⟨before, after, rfl⟩ := List.append_of_mem hdeed
    have hends := hdeeds.countP_ends_le hinit t
    have hmost : (s.world.isOver t).toNat ≤ 1 := Bool.toNat_le _
    have htold' : .answered c t answer ∈ before ++ after := by
      have hmem := mem_deeds_of_answersAt htold
      rw [List.mem_append, List.mem_cons] at hmem
      rw [List.mem_append]
      rcases hmem with hmem | heq | hmem
      · exact Or.inl hmem
      · cases heq
      · exact Or.inr hmem
    have hpos : 0 < (before ++ after).countP (·.ends t) :=
      List.countP_pos_iff.mpr ⟨_, htold', decide_eq_true rfl⟩
    have hended : (Deed.interrupted t source).ends t = true := decide_eq_true rfl
    simp only [List.countP_append, List.countP_cons, hended, if_true] at hends hpos
    omega
  · intro t v htold
    refine hdelivers.handed.subset (List.mem_filterMap.mpr ⟨_, htold, rfl⟩)
  · intro t p run onInterrupt hp hstate hallowed hline source
    exact World.chronicle_interrupt_of_inLine (hdeeds.orderly hinit) hp hstate hallowed hline source

/-- A taker that is interrupted while it is parked. -/
theorem Run.forgets_interruptedTaker :
    ∃ s record, Run 8 (init 0) record s ∧
      (∃ deeds source, Chronicle (.init 0) deeds s.world ∧ .interrupted ⟨0⟩ source ∈ deeds) ∧
      (∃ deeds, Chronicle (.init 0) deeds s.world) ∧
      ∀ deeds, Chronicle (.init 0) deeds s.world → ∀ {c ch},
        s.world.store.channel? c = some ch → s.world.Forgets c ch deeds := by
  have hrun : Run 8 (init 0) _ _ := .of_parked (.move (.interrupt ⟨1⟩ ⟨0⟩) .rest)
  have horderly := ServedTake.chronicle_parked.orderly (World.orderly_init 0)
  have hline : ServedTake.parked.InLine ⟨0⟩ ⟨0⟩ := ⟨ServedTake.line, rfl, by decide⟩
  obtain ⟨source, line, ticket, hinterrupt⟩ :=
    World.chronicle_interrupt_of_inLine (p := ServedTake.takerAt ServedTake.parkedState) horderly
      rfl rfl rfl hline ⟨0⟩
  refine ⟨_, _, hrun, ⟨_, source, ServedTake.chronicle_parked.trans hinterrupt, ?_⟩,
    Run.forgets hrun⟩
  simp

/-- What happens after a fiber has begun to wait says that the wait ends with an interruption: it
is interrupted while it is parked, or it drops the outcome of its wait, which it has got at once
or when it was woken. -/
inductive EndsInterrupted : List Event → Prop where
  | parked {source : FiberId} {rest : List Event} : EndsInterrupted (.cancelled source :: rest)
  | atOnce {w : World} {rest : List Event} : EndsInterrupted (.stopped w :: rest)
  | woken {outcome : Outcome} {w : World} {rest : List Event} :
      EndsInterrupted (.resumed outcome :: .stopped w :: rest)

namespace ServedTake

/-- What both fibers do. -/
def doings : List (FiberId × Event) :=
  [(⟨1⟩, .iterated (begun []) start (.eval taking)),
   (⟨2⟩, .iterated (offered []) start (.eval offering)),
   (⟨2⟩, .iterated (served interruptedTaker offerer [woken]) start (.value .unit)),
   (⟨1⟩, .stopped (served interruptedTaker finishedOfferer [])),
   (⟨1⟩, .iterated (served interruptedTaker finishedOfferer []) start (.interrupt ⟨2⟩))]

/-- The taker is served, and interrupted before it runs. -/
theorem run : Run 8 (init 0) doings ⟨final, []⟩ := by
  have hstart : Move 8 ⟨parked, []⟩ [] ⟨offered [⟨⟨2⟩, start, .eval offering⟩], []⟩ :=
    .start offering .unit none
  have hpick : Move 8 ⟨offered [⟨⟨2⟩, start, .eval offering⟩], []⟩ []
      ⟨offered [], [⟨⟨2⟩, start, .eval offering, 0⟩]⟩ :=
    @Move.pick_first 8 _ [] .empty ⟨⟨2⟩, start, .eval offering⟩ rfl
  have hserve : Move 8 ⟨offered [], [⟨⟨2⟩, start, .eval offering, 0⟩]⟩
      [(⟨2⟩, .iterated (offered []) start (.eval offering))]
      ⟨served taker offerer [woken], [⟨⟨2⟩, start, .value .unit, 1⟩]⟩ := .advance_one _ _ _
  have hinterrupt : Move 8 ⟨served taker offerer [woken], [⟨⟨2⟩, start, .value .unit, 1⟩]⟩ []
      ⟨served interruptedTaker offerer [woken], [⟨⟨2⟩, start, .value .unit, 1⟩]⟩ :=
    .interrupt ⟨1⟩ ⟨2⟩
  have hfinish : Move 8
      ⟨served interruptedTaker offerer [woken], [⟨⟨2⟩, start, .value .unit, 1⟩]⟩
      [(⟨2⟩, .iterated (served interruptedTaker offerer [woken]) start (.value .unit))]
      ⟨served interruptedTaker finishedOfferer [woken], []⟩ := .advance_one _ _ _
  have hpick' : Move 8 ⟨served interruptedTaker finishedOfferer [woken], []⟩ []
      ⟨served interruptedTaker finishedOfferer [], [⟨⟨1⟩, start, .value element, 0⟩]⟩ :=
    @Move.pick_first 8 _ [] .empty woken rfl
  have hstop : Move 8
      ⟨served interruptedTaker finishedOfferer [], [⟨⟨1⟩, start, .value element, 0⟩]⟩
      [(⟨1⟩, .stopped (served interruptedTaker finishedOfferer [])),
       (⟨1⟩, .iterated (served interruptedTaker finishedOfferer []) start (.interrupt ⟨2⟩))]
      ⟨final, []⟩ := .advance_one _ _ _
  exact Run.of_parked <|
    .move hstart <| .move hpick <| .move hserve <| .move hinterrupt <| .move hfinish <|
    .move hpick' <| .move hstop .rest

/-- What the taker goes through after it has begun to wait. -/
def afterwards : List Event :=
  [.resumed (.done element), .stopped (served interruptedTaker finishedOfferer []),
   .iterated (served interruptedTaker finishedOfferer []) start (.interrupt ⟨2⟩)]

theorem history :
    History ⟨final, []⟩ doings ⟨1⟩
      (.started .unit true taking :: .iterated (begun []) start (.eval taking) :: afterwards)
      (.ended (.halt (.of (.interrupt ⟨2⟩)))) where
  life :=
    .go trivial (.started .unit true taking) <|
    .go trivial (.iterated rfl) <|
    .go trivial (.resumed (.done element)) <|
    .go trivial (.stopped rfl rfl) <|
    .go trivial (.iterated rfl) .rest
  stands := ⟨by decide, rfl⟩
  doings := rfl

/-- What has happened at the channel. -/
def deeds : List Deed :=
  [.made ⟨0⟩, .asked ⟨0⟩ (.take ⟨0⟩), .asked ⟨0⟩ (.offer ⟨1⟩ element),
   .answered ⟨0⟩ ⟨0⟩ (.element element), .answered ⟨0⟩ ⟨1⟩ .done,
   .finished ⟨2⟩ (.done .unit), .finished ⟨1⟩ (.halt (.of (.interrupt ⟨2⟩)))]

theorem chronicle : Chronicle (.init 0) deeds final := by
  have hoffered : Chronicle parked [] (offered []) :=
    .idle (World.idles_push _ rfl rfl (by simp))
  let opened' := ((offered []).newSuspension ⟨2⟩ true (.offer ⟨0⟩ element)).2
  have hopened' : Chronicle (offered []) [] opened' :=
    .opened _ _ _ (World.InHand.absent ⟨by decide, rfl⟩)
  have hasks' : opened'.Asks ⟨0⟩ line (.offer ⟨1⟩ element) :=
    World.asks_of_registering (p := offererAt .registering) rfl rfl (by decide) rfl rfl
  let told := opened'.ask ⟨0⟩ line (.offer ⟨1⟩ element)
  have hasked' : Chronicle opened' [.asked ⟨0⟩ (.offer ⟨1⟩ element),
      .answered ⟨0⟩ ⟨0⟩ (.element element), .answered ⟨0⟩ ⟨1⟩ .done] told := .asked rfl hasks'
  have hserved : Chronicle told [] (served taker offerer [woken]) :=
    @Chronicle.vacated told ⟨1⟩ (offererAt (.early (.done .unit))) rfl rfl (by rintro ⟨⟩)
  have hinterrupted : Chronicle (served taker offerer [woken]) []
      (served interruptedTaker offerer [woken]) :=
    .idle (World.idles_recordInterruptor _ ⟨1⟩ ⟨2⟩)
  have hfinished : Chronicle (served interruptedTaker offerer [woken])
      [.finished ⟨2⟩ (.done .unit)] (served interruptedTaker finishedOfferer [woken]) :=
    .finished _ (by decide) (World.InHand.absent ⟨by decide, rfl⟩)
  have hpicked : Chronicle (served interruptedTaker finishedOfferer [woken]) []
      (served interruptedTaker finishedOfferer []) := .idle (.of_eq rfl rfl rfl rfl)
  have hfinished' : Chronicle (served interruptedTaker finishedOfferer [])
      [.finished ⟨1⟩ (.halt (.of (.interrupt ⟨2⟩)))] final :=
    .finished _ (by decide) (World.InHand.absent ⟨by decide, rfl⟩)
  exact chronicle_parked.trans (hoffered.trans (hopened'.trans (hasked'.trans (hserved.trans
    (hinterrupted.trans (hfinished.trans (hpicked.trans hfinished')))))))

end ServedTake

/-- **Not every interrupted take is forgotten**: the element that a taker has been handed is gone
if it is interrupted before it runs. -/
theorem Run.not_every_interrupted_take_forgotten :
    ¬ ∀ budget minted s record fiber es a before after w run c ch deeds,
      Run budget (init minted) record s → History s record fiber es a →
      es = before ++ .iterated w run (.eval (.wait (.take c))) :: after → EndsInterrupted after →
      Chronicle (.init minted) deeds s.world → s.world.store.channel? c = some ch →
      (ch.listAfter (Queue.without ⟨w.suspensions.next⟩ (requestsAt c deeds))).items =
        (ch.listAfter (requestsAt c deeds)).items := by
  intro hall
  have hforgotten := hall 8 0 _ _ ⟨1⟩ _ _ [_] ServedTake.afterwards (ServedTake.begun [])
    ServedTake.start ⟨0⟩ { tickets := 1 } _ ServedTake.run ServedTake.history rfl .woken
    ServedTake.chronicle rfl
  have hlength := congrArg List.length hforgotten
  revert hlength
  decide

end Workshop

end Fibers
