import Fibers.Proofs.ExitDelivery
import Fibers.Proofs.Settling

/-!
# A fiber that confides in one other

The exit of a fiber is there for one taker.  Whoever is the only one to wait for it therefore gets
it, and gets it as it has been put down.  A fiber that runs others at once waits for each of them
twice: among others first, to learn which of them is done with, and then for its exit.  If nobody
else waits for it, what it is told is how the other one has ended; and if it is told first that none
has failed, then each has ended with a value, for nobody has taken an exit before.

What a fiber may learn from its waits is put into a prospect, `Workshop.confided`, for a fiber that
is not asked to stop.

## Main definitions

* `waitsFor` — the waits for a fiber among what another one does.
* `Workshop.LeftTo` — nobody but one that waits for a fiber has got its exit.
* `Workshop.Confides` — one fiber alone waits for another one.
* `Workshop.confided` — what the only one to wait is told.

## Main results

* `Workshop.Run.cut`, `Workshop.Run.cut_at` — a run can be cut after every iteration.
* `Workshop.Run.ended_of_learns` — **who gets the exit that is left to it knows how the fiber has
  ended.**
* `Workshop.Run.told_of_confides` — what is told of a fiber is so, and its exit is still there.
* `Workshop.Run.succeeded_of_confides` — **who is told that none has failed knows how all have
  ended.**
* `Workshop.Run.failed_of_confides` — who is told that one has failed knows that it has.
* `Workshop.Run.foresees_confided` — all of it, as a prospect.
-/

namespace Fibers

/-! ### Waits for a fiber -/

/-- Whether a wait is for a fiber, alone or among others. -/
def Registration.isFor (c : FiberId) : Registration → Bool
  | .awaitExit fiber _ => fiber = c
  | .firstDone left right => left = c || right = c
  | .firstFailure children => children.contains c
  | .callback _ | .sleep _ | .offer _ _ | .take _ | .awaitClose _ => false

/-- The waits for a fiber among some events, in order. -/
def waitsFor (c : FiberId) (es : List Event) : List Registration :=
  (waited (acts es)).filter (Registration.isFor c)

section WaitsFor

variable {c : FiberId} {es : List Event} {n m : Nat} {w : World} {run : RunState}
  {registration : Registration}

theorem waitsFor_append (c : FiberId) (es es' : List Event) :
    waitsFor c (es ++ es') = waitsFor c es ++ waitsFor c es' := by
  simp [waitsFor]

theorem waitsFor_wait (es : List Event) (hfor : registration.isFor c = true) :
    waitsFor c (.iterated w run (.eval (.wait registration)) :: es) =
      registration :: waitsFor c es := by
  have hacts : acts (.iterated w run (.eval (.wait registration)) :: es) =
      .waits registration :: acts es := acts_cons _ _
  rw [waitsFor, hacts, waited_waits, List.filter_cons_of_pos hfor, waitsFor]

/-- The events up to a wait, the wait, and those after it. -/
theorem waitsFor_eq (he : es[n]? = some (.iterated w run (.eval (.wait registration))))
    (hfor : registration.isFor c = true) :
    waitsFor c es = waitsFor c (es.take n) ++ registration :: waitsFor c (es.drop (n + 1)) := by
  obtain ⟨hn, hget⟩ := List.getElem?_eq_some_iff.mp he
  have hsplit : es = es.take n ++ .iterated w run (.eval (.wait registration)) ::
      es.drop (n + 1) := by
    rw [← hget, List.getElem_cons_drop, List.take_append_drop]
  conv_lhs => rw [hsplit]
  rw [waitsFor_append, waitsFor_wait _ hfor]

/-- A wait stands among all in the place that those before it leave. -/
theorem getElem?_waitsFor (he : es[n]? = some (.iterated w run (.eval (.wait registration))))
    (hfor : registration.isFor c = true) :
    (waitsFor c es)[(waitsFor c (es.take n)).length]? = some registration := by
  rw [waitsFor_eq he hfor, List.getElem?_append_right (Nat.le_refl _), Nat.sub_self]
  rfl

/-- What has been done up to some time has no more waits than what has been done later. -/
theorem length_waitsFor_le (h : n ≤ m) :
    (waitsFor c (es.take n)).length ≤ (waitsFor c (es.take m)).length := by
  have hinitial : es.take n ++ (es.take m).drop n = es.take m := by
    have htake : (es.take m).take n = es.take n := by rw [List.take_take, Nat.min_eq_left h]
    rw [← htake, List.take_append_drop]
  rw [← hinitial, waitsFor_append, List.length_append]
  exact Nat.le_add_right _ _

/-- A wait comes before those that are begun later. -/
theorem length_waitsFor_lt (he : es[n]? = some (.iterated w run (.eval (.wait registration))))
    (hfor : registration.isFor c = true) (h : n < m) :
    (waitsFor c (es.take n)).length < (waitsFor c (es.take m)).length := by
  have htake : (es.take m)[n]? = some (.iterated w run (.eval (.wait registration))) := by
    rw [List.getElem?_take_of_lt h, he]
  have hfirst : (es.take m).take n = es.take n := by
    rw [List.take_take, Nat.min_eq_left (Nat.le_of_lt h)]
  have heq := waitsFor_eq htake hfor
  rw [hfirst] at heq
  rw [heq, List.length_append, List.length_cons]
  omega

/-- A wait is told from others by how many come before it. -/
theorem eq_of_length_waitsFor {w' : World} {run' : RunState} {registration' : Registration}
    (he : es[n]? = some (.iterated w run (.eval (.wait registration))))
    (hfor : registration.isFor c = true)
    (he' : es[m]? = some (.iterated w' run' (.eval (.wait registration'))))
    (hfor' : registration'.isFor c = true)
    (heq : (waitsFor c (es.take n)).length = (waitsFor c (es.take m)).length) : n = m := by
  rcases Nat.lt_trichotomy n m with hlt | hn | hlt
  · have := length_waitsFor_lt he hfor hlt
    omega
  · exact hn
  · have := length_waitsFor_lt he' hfor' hlt
    omega

/-- Where nobody but one fiber waits for another one, whoever waits is that fiber. -/
theorem eq_of_nobody {record : List (FiberId × Event)} {fiber f : FiberId}
    (hnobody : ∀ f, f ≠ fiber → waitsFor c (eventsOf f record) = [])
    (he : (eventsOf f record)[n]? = some (.iterated w run (.eval (.wait registration))))
    (hfor : registration.isFor c = true) : f = fiber := by
  by_contra hne
  have hget := getElem?_waitsFor he hfor
  rw [hnobody f hne] at hget
  cases hget

end WaitsFor

/-- A fiber that goes on from a wait with a value has been told so. -/
theorem Ledger.GoesOn.told_of_value {l : Ledger} {w : World} {wait : Wait}
    {run : RunState} {v : Value} (h : l.GoesOn w wait run (.value v)) :
    l.Told w.store wait.place wait.registration (.done v) := by
  generalize hstep : Step.value v = step at h
  cases h with
  | @told o htold =>
    cases o with
    | done v' => exact Step.value.inj hstep ▸ htold
    | halt failure => cases hstep
  | interrupted source _ _ => cases hstep

namespace Workshop

variable {budget minted : Nat} {s : Workshop} {record : List (FiberId × Event)}
  {fiber c : FiberId} {first : Registration} {type : ErrorType}

/-! ### Who gets an exit -/

section LeftTo

variable {f : FiberId} {n : Nat} {w : World} {run : RunState}

/-- Whoever waits for a fiber does so at one type of failures. -/
def AskedOnlyAt (record : List (FiberId × Event)) (type : ErrorType) (f : FiberId) : Prop :=
  ∀ {t fiber n w run}, Awaits record f t fiber n w run → t = type

/-- The exit of a fiber is left to one that waits for it: nobody else has got it, whether it has
learnt it or dropped it. -/
structure LeftTo (s : Workshop) (record : List (FiberId × Event)) (type : ErrorType)
    (f fiber : FiberId) (n : Nat) : Prop where
  asked : AskedOnlyAt record type f
  unreported : ∀ x, (f, x) ∉ s.world.store.reports
  dropped : ∀ {a}, a ≠ .waiter fiber n → ¬ Drops record f a
  others : ∀ {a z}, a ≠ .waiter fiber n → Learns s record f a z →
    z = s.world.store.names.observed f

/-- The exit of a fiber is left to a wait if that is the only one for it. -/
theorem LeftTo.of_only (hunreported : ∀ x, (f, x) ∉ s.world.store.reports)
    (honly : ∀ {t c m w run}, Awaits record f t c m w run → c = fiber ∧ t = type ∧ m = n) :
    LeftTo s record type f fiber n := by
  refine ⟨fun hawaits => (honly hawaits).2.1, hunreported, fun {a} hne hdrops => ?_,
    fun {a z} hne hlearns => ?_⟩
  · cases a with
    | starter k => exact hdrops
    | waiter c m =>
      obtain ⟨t, w, run, -, hawaits, -⟩ := hdrops
      obtain ⟨rfl, -, rfl⟩ := honly hawaits
      exact hne rfl
  · cases a with
    | starter k =>
      cases hlearns with
      | reported hreport => exact absurd (List.mem_of_getElem? hreport) (hunreported _)
    | waiter c m =>
      obtain ⟨t, w, run, hawaits⟩ := hlearns.awaits
      obtain ⟨rfl, -, rfl⟩ := honly hawaits
      exact absurd rfl hne

/-- The exit of a fiber for which one other fiber alone waits, and once, is left to that one. -/
theorem LeftTo.of_alone (hown : waitsFor f (eventsOf fiber record) = [.awaitExit f type])
    (hnobody : ∀ c, c ≠ fiber → waitsFor f (eventsOf c record) = [])
    (hunreported : ∀ x, (f, x) ∉ s.world.store.reports)
    (ha : Awaits record f type fiber n w run) : LeftTo s record type f fiber n := by
  have hposition : ∀ {t m w' run'}, Awaits record f t fiber m w' run' →
      (waitsFor f ((eventsOf fiber record).take m)).length = 0 ∧ t = type := by
    intro t m w' run' hawaits
    have hget := getElem?_waitsFor hawaits (decide_eq_true rfl)
    rw [hown] at hget
    obtain ⟨hzero, heq⟩ := List.getElem?_eq_some_iff.mp hget
    obtain hzero := Nat.lt_one_iff.mp hzero
    simp only [hzero, List.getElem_cons_zero, Registration.awaitExit.injEq, true_and] at heq
    exact ⟨hzero, heq.symm⟩
  refine .of_only hunreported fun {t c m w' run'} hawaits => ?_
  obtain rfl := eq_of_nobody hnobody hawaits (decide_eq_true rfl)
  obtain ⟨hm, rfl⟩ := hposition hawaits
  exact ⟨rfl, rfl, eq_of_length_waitsFor hawaits (decide_eq_true rfl) ha (decide_eq_true rfl)
    (hm.trans (hposition ha).1.symm)⟩

/-- **Who gets the exit that is left to it** knows how the fiber has ended. -/
theorem Run.ended_of_learns (h : Run budget (init minted) record s)
    (hleft : LeftTo s record type f fiber n) {z : Exit Value Value}
    (hlearns : Learns s record f (.waiter fiber n) z) :
    ∃ o, Ended record f o ∧ z = o.untag type := by
  obtain ⟨l, rfl, hbooks⟩ := h.books f
  have hgiven := hbooks.given_ne_nil_of_learns hlearns
  cases hbooks.holds.shelf with
  | going _ _ _ hnil | kept _ _ _ _ hnil => exact absurd hnil hgiven
  | @taken o types type' who rest hresult _ _ htypes hwho hall hrest =>
    refine ⟨o, (hbooks.result o).mp hresult, ?_⟩
    obtain ⟨first, hasks, hgot, hfirst⟩ :=
      hbooks.exists_first (fun fiber => h.history fiber) hall hrest hwho
    -- somebody else who has got it has got nothing but the defect
    have hz : z = (o.passed types).untag type' := by
      rcases hfirst hlearns with ⟨-, rfl⟩ | ⟨hne, rfl⟩
      · rfl
      · rcases hgot with hdrops | hlearns'
        · exact absurd hdrops (hleft.dropped hne.symm)
        · exact (hleft.others hne.symm hlearns').symm
    have htype : type' = type := by
      cases first with
      | waiter c k =>
        obtain ⟨w, run, hawaits⟩ := hasks
        exact hleft.asked hawaits
      | starter k =>
        rcases hgot with hdrops | hlearns'
        · exact hdrops.elim
        · cases hlearns' with
          | reported hreport => exact absurd (List.mem_of_getElem? hreport) (hleft.unreported _)
    have hseen : Seen record l.fiber o type z :=
      ⟨types, hbooks.awaits_of_types htypes, htype ▸ hz⟩
    exact hseen.eq_untag hleft.asked

end LeftTo

/-! ### The only one to wait -/

/-- One fiber alone waits for another one: among others first, and then at most once for its exit.
Nobody who has started a fiber is told of it either. -/
structure Confides (s : Workshop) (record : List (FiberId × Event)) (fiber c : FiberId)
    (first : Registration) (type : ErrorType) : Prop where
  own : waitsFor c (eventsOf fiber record) <+: [first, .awaitExit c type]
  nobody : ∀ f, f ≠ fiber → waitsFor c (eventsOf f record) = []
  unreported : ∀ x, (c, x) ∉ s.world.store.reports
  among : ∀ type', first ≠ .awaitExit c type'

namespace Confides

variable {f : FiberId} {type' : ErrorType} {n m : Nat} {w : World} {run : RunState}

/-- A wait is one of the two. -/
theorem getElem?_own (h : Confides s record fiber c first type) {k : Nat}
    {registration : Registration}
    (hget : (waitsFor c (eventsOf fiber record))[k]? = some registration) :
    [first, .awaitExit c type][k]? = some registration := by
  obtain ⟨hk, rfl⟩ := List.getElem?_eq_some_iff.mp hget
  exact List.prefix_iff_getElem?.mp h.own k hk

/-- The wait among others comes first. -/
theorem position_first (h : Confides s record fiber c first type)
    (he : (eventsOf fiber record)[n]? = some (.iterated w run (.eval (.wait first))))
    (hfor : first.isFor c = true) : (waitsFor c ((eventsOf fiber record).take n)).length = 0 := by
  have hget := h.getElem?_own (getElem?_waitsFor he hfor)
  generalize (waitsFor c ((eventsOf fiber record).take n)).length = k at hget
  match k with
  | 0 => rfl
  | 1 => exact absurd (Option.some.inj hget).symm (h.among type)

/-- The wait for the exit comes second. -/
theorem position_exit (h : Confides s record fiber c first type)
    (ha : Awaits record c type' f n w run) :
    f = fiber ∧ type' = type ∧
      (waitsFor c ((eventsOf fiber record).take n)).length = 1 := by
  have hfor : (Registration.awaitExit c type').isFor c = true := decide_eq_true rfl
  obtain rfl := eq_of_nobody h.nobody ha hfor
  refine ⟨rfl, ?_⟩
  have hget := h.getElem?_own (getElem?_waitsFor ha hfor)
  generalize (waitsFor c ((eventsOf f record).take n)).length = k at hget
  match k with
  | 0 => exact absurd (Option.some.inj hget) (h.among type')
  | 1 => exact ⟨(Registration.awaitExit.inj (Option.some.inj hget)).2.symm, rfl⟩

/-- The exit is waited for once. -/
theorem eq_of_awaits (h : Confides s record fiber c first type) {f' : FiberId} {w' : World}
    {run' : RunState} {type'' : ErrorType} (ha : Awaits record c type' f n w run)
    (ha' : Awaits record c type'' f' m w' run') : f = f' ∧ n = m := by
  obtain ⟨rfl, -, hn⟩ := h.position_exit ha
  obtain ⟨rfl, -, hm⟩ := h.position_exit ha'
  exact ⟨rfl, eq_of_length_waitsFor ha (decide_eq_true rfl) ha' (decide_eq_true rfl)
    (hn.trans hm.symm)⟩

/-- The exit is waited for after the wait among others. -/
theorem lt_of_awaits (h : Confides s record fiber c first type) {w' : World} {run' : RunState}
    (he : (eventsOf fiber record)[n]? = some (.iterated w' run' (.eval (.wait first))))
    (hfor : first.isFor c = true) (ha : Awaits record c type' f m w run) : n < m := by
  have hn := h.position_first he hfor
  obtain ⟨-, -, hm⟩ := h.position_exit ha
  by_contra hle
  have := @length_waitsFor_le c (eventsOf fiber record) m n (by omega)
  omega

end Confides

/-! ### What it is told -/

/-- Whoever has started the fiber has been given nothing. -/
theorem Books.given_of_unreported {l : Ledger} (h : Books l record s)
    (hunreported : ∀ x, (l.fiber, x) ∉ s.world.store.reports) (x : Exit Value Value) :
    (none, x) ∉ l.given := by
  intro hgiven
  have hmem : x ∈ s.world.store.reports.filterMap
      fun r => if r.1 = l.fiber then some r.2 else none := by
    rw [h.holds.reports]
    exact List.mem_filterMap.mpr ⟨_, hgiven, if_pos rfl⟩
  obtain ⟨⟨f, y⟩, hr, heq⟩ := List.mem_filterMap.mp hmem
  split at heq
  · next hself =>
    obtain rfl : f = l.fiber := hself
    exact hunreported y hr
  · cases heq

/-- The exit of a fiber is left to the one who alone waits for it. -/
theorem Confides.leftTo (h : Confides s record fiber c first type) {n : Nat} {w : World}
    {run : RunState} (ha : Awaits record c type fiber n w run) : LeftTo s record type c fiber n :=
  .of_only h.unreported fun hawaits =>
    ⟨(h.position_exit hawaits).1, (h.position_exit hawaits).2.1, (h.eq_of_awaits hawaits ha).2⟩

/-! ### Cutting a run -/

/-- A move in which a fiber iterates does nothing after that. -/
theorem Move.last_iterated {s' : Workshop} {before after : List (FiberId × Event)} {f : FiberId}
    {w : World} {run : RunState} {step : Step}
    (h : Move budget s (before ++ (f, .iterated w run step) :: after) s') : after = [] := by
  generalize hevents : before ++ (f, Event.iterated w run step) :: after = events at h
  cases h with
  | pick | interrupt _ _ | act _ | ring | start _ _ _ => simp at hevents
  | @advance v before' after' slice m hm =>
    simp only [Slice.doings] at hevents
    generalize (if Machine.counts slice.step then slice.used + 1 else slice.used) = used at hevents
    by_cases hused : max budget 1 < used
    · rw [if_pos hused] at hevents
      simp at hevents
    · rw [if_neg hused, List.map_append] at hevents
      rcases List.eq_nil_or_concat after with hnil | ⟨more, e, rfl⟩
      · exact hnil
      · -- what comes before the last one is no iteration
        rw [List.concat_eq_append, ← List.cons_append, ← List.append_assoc] at hevents
        have hfirst := (List.append_inj' hevents rfl).1
        have hmem : (f, Event.iterated w run step) ∈ before ++ (f, .iterated w run step) :: more :=
          List.mem_append_right _ List.mem_cons_self
        rw [hfirst] at hmem
        obtain ⟨e', he', heq⟩ := List.mem_map.mp hmem
        split at he'
        · obtain rfl := List.mem_singleton.mp he'
          cases heq
        · cases he'

/-- **A run can be cut after every iteration.** -/
theorem Run.cut {s' : Workshop} {f : FiberId} {w : World} {run : RunState} {step : Step}
    {before after : List (FiberId × Event)}
    (h : Run budget s (before ++ (f, .iterated w run step) :: after) s') :
    ∃ middle, Run budget s (before ++ [(f, .iterated w run step)]) middle ∧
      Run budget middle after s' := by
  generalize hrecord : before ++ (f, Event.iterated w run step) :: after = record' at h
  induction h generalizing before with
  | rest => simp at hrecord
  | @move s₀ s₁ s₂ events record' hmove hrest ih =>
    rcases List.append_eq_append_iff.mp hrecord with ⟨more, rfl, hmore⟩ | ⟨more, rfl, hmore⟩
    · cases more with
      | nil =>
        -- the iteration is the first one after this move
        obtain ⟨middle, hfirst, hsecond⟩ := @ih [] hmore
        refine ⟨middle, ?_, hsecond⟩
        rw [← List.append_nil before]
        rw [List.append_assoc]
        exact .move (by simpa using hmove) hfirst
      | cons e more =>
        -- this move is the one in which the fiber iterates
        obtain ⟨rfl, rfl⟩ := List.cons.inj hmore
        obtain rfl := hmove.last_iterated
        refine ⟨s₁, ?_, hrest⟩
        rw [← List.append_nil (before ++ _)]
        exact .move hmove .rest
    · obtain ⟨middle, hfirst, hsecond⟩ := ih hmore.symm
      refine ⟨middle, ?_, hsecond⟩
      rw [List.append_assoc]
      exact .move hmove hfirst

/-! ### What it is told first -/

/-- A doing of a fiber stands in the record after those before it. -/
theorem exists_record_of_doing {f : FiberId} {n : Nat} {e : Event}
    (he : (eventsOf f record)[n]? = some e) :
    ∃ before after, record = before ++ (f, e) :: after ∧
      eventsOf f before = (eventsOf f record).take n := by
  obtain ⟨hn, hget⟩ := List.getElem?_eq_some_iff.mp he
  have hsplit : eventsOf f record = (eventsOf f record).take n ++ e ::
      (eventsOf f record).drop (n + 1) := by
    rw [← hget, List.getElem_cons_drop, List.take_append_drop]
  obtain ⟨before, rest, hrecord, hbefore, hrest⟩ := List.filterMap_eq_append_iff.mp hsplit
  obtain ⟨others, ⟨f', e'⟩, after, rfl, hothers, he', -⟩ := List.filterMap_eq_cons_iff.mp hrest
  split at he'
  · next hself =>
    obtain rfl : f' = f := hself
    obtain rfl := Option.some.inj he'
    refine ⟨before ++ others, after, by rw [hrecord, List.append_assoc], ?_⟩
    rw [eventsOf_append, eventsOf, eventsOf, hbefore, List.filterMap_eq_nil_iff.mpr hothers,
      List.append_nil]
  · cases he'

/-- A run can be cut after what a fiber has done at some place. -/
theorem Run.cut_at {s' : Workshop} {f : FiberId} {n : Nat} {w : World} {run : RunState} {step : Step}
    (h : Run budget s record s') (hn : (eventsOf f record)[n]? = some (.iterated w run step)) :
    ∃ first rest middle, record = first ++ rest ∧
      eventsOf f first = (eventsOf f record).take (n + 1) ∧ Run budget s first middle ∧
        Run budget middle rest s' := by
  obtain ⟨before, after, rfl, hbefore⟩ := exists_record_of_doing hn
  obtain ⟨middle, hfirst, hlater⟩ := h.cut
  refine ⟨_, after, middle, by rw [List.append_assoc]; rfl, ?_, hfirst, hlater⟩
  rw [List.take_add_one, hn, ← hbefore, eventsOf_append, eventsOf_self]
  rfl

/-- As long as nobody has waited for the exit of a fiber, nobody has been given it. -/
theorem Books.given_eq_nil {l : Ledger} (h : Books l record s)
    (hunreported : ∀ x, (none, x) ∉ l.given)
    (hnobody : ∀ type f n w run, ¬ Awaits record l.fiber type f n w run) : l.given = [] := by
  refine List.eq_nil_iff_forall_not_mem.mpr ?_
  rintro ⟨_ | t, x⟩ hgiven
  · exact hunreported x hgiven
  · obtain ⟨type, f, n, w, run, hawaits, -⟩ := h.awaits_of_given hgiven
    exact hnobody type f n w run hawaits

/-- What a fiber has done first remains so. -/
theorem getElem?_eventsOf_append {before : List (FiberId × Event)} {f : FiberId} {n : Nat}
    {e : Event} (he : (eventsOf f before)[n]? = some e) (after : List (FiberId × Event)) :
    (eventsOf f (before ++ after))[n]? = some e := by
  rw [eventsOf_append, List.getElem?_append_left (List.getElem?_eq_some_iff.mp he).1, he]

/-- As long as the one who alone waits for a fiber has not waited for its exit, nobody has been given
it. -/
theorem Books.given_of_confides {before after : List (FiberId × Event)} {middle : Workshop}
    {l : Ledger} (h : Books l before middle) (hfirst : Run budget (init minted) before middle)
    (hlater : Run budget middle after s)
    (hconfides : Confides s (before ++ after) fiber l.fiber first type)
    (hnobody : ∀ type' m w run, ¬ Awaits before l.fiber type' fiber m w run) : l.given = [] := by
  obtain ⟨l', hfiber, hgiven, hbooks⟩ := hlater.extends_books (hfirst.valid (valid_init minted))
    ((hfirst.exists_chronicle (valid_init minted) (World.orderly_init minted)).orderly
      (World.orderly_init minted)) h
  refine h.given_eq_nil (fun x hx => ?_) fun type' f m w run hawaits => ?_
  · have hunreported := hconfides.unreported
    rw [← hfiber] at hunreported
    exact hbooks.given_of_unreported hunreported x (hgiven.subset hx)
  · obtain ⟨rfl, -, -⟩ := hconfides.position_exit (getElem?_eventsOf_append hawaits after)
    exact hnobody type' m w run hawaits

/-- **What the only one to wait for a fiber is told first** has been told when its exit had not been
given to anybody. -/
theorem Run.told_of_confides (h : Run budget (init minted) record s)
    (hconfides : Confides s record fiber c first type) (hfor : first.isFor c = true) {n : Nat}
    {w : World} {run : RunState} {v : Value}
    (hwait : (eventsOf fiber record)[n]? = some (.iterated w run (.eval (.wait first))))
    (hhears : Hears s record fiber n run (.done v)) :
    ∃ (l : Ledger) (store : Store), l.fiber = c ∧ l.given = [] ∧
      l.Told store ⟨w.suspensions.next⟩ first (.done v) ∧
        ∀ o, l.result = some o → Ended record c o := by
  cases hhears with
  | ready hlength hstands =>
    obtain ⟨l, rfl, hbooks⟩ := h.books c
    have hgo := (hbooks.standing (hbooks.last_of_length hwait rfl hlength) hstands).1 _ _ rfl
    have hwhole : Confides s (record ++ []) fiber l.fiber first type := by
      rwa [List.append_nil]
    have hnil : l.given = [] := by
      refine hbooks.given_of_confides h .rest hwhole fun type' m w' run' hawaits => ?_
      have hlater := hconfides.lt_of_awaits hwait hfor hawaits
      have hm := (List.getElem?_eq_some_iff.mp hawaits).1
      omega
    exact ⟨l, _, rfl, hnil, hgo.told_of_value, fun o => (hbooks.result o).mp⟩
  | @goesOn w' hnext =>
    -- what it is told is so when it goes on, before anybody waits for the exit
    obtain ⟨before, after, middle, rfl, hevents, hfirst, hlater⟩ := h.cut_at hnext
    have hwait' : (eventsOf fiber before)[n]? = some (.iterated w run (.eval (.wait first))) := by
      rw [hevents, List.getElem?_take_of_lt (by omega), hwait]
    have hnext' : (eventsOf fiber before)[n + 1]? =
        some (.iterated w' run (.ofOutcome (.done v))) := by
      rw [hevents, List.getElem?_take_of_lt (by omega), hnext]
    obtain ⟨l, rfl, hbooks⟩ := hfirst.books c
    have hnil : l.given = [] := by
      refine hbooks.given_of_confides hfirst hlater hconfides fun type' m w'' run' hawaits => ?_
      have hm := (List.getElem?_eq_some_iff.mp hawaits).1
      rw [hevents, List.length_take] at hm
      have hlt := hconfides.lt_of_awaits hwait hfor (getElem?_eventsOf_append hawaits after)
      obtain rfl : m = n + 1 := by omega
      -- what it does after the wait is to go on from it
      rw [Awaits, hnext'] at hawaits
      cases hawaits
    cases hbooks.after_wait hwait' rfl hnext' with
    | iterated hgo =>
      refine ⟨l, _, rfl, hnil, hgo.told_of_value, fun o ho => ?_⟩
      obtain ⟨w'', run', step, hmem, hplan⟩ := (hbooks.result o).mp ho
      exact ⟨w'', run', step, List.mem_append_left _ hmem, hplan⟩

/-- **Who is told that none of its children has failed knows how all have ended**, if nobody else
waits for them. -/
theorem Run.succeeded_of_confides (h : Run budget (init minted) record s)
    {children : List FiberId} (hc : c ∈ children)
    (hconfides : Confides s record fiber c (.firstFailure children) type) {n : Nat} {w : World}
    {run : RunState}
    (hwait : (eventsOf fiber record)[n]? =
      some (.iterated w run (.eval (.wait (.firstFailure children)))))
    (hhears : Hears s record fiber n run (.done .none)) : ∃ v, Ended record c (.done v) := by
  obtain ⟨l, store, rfl, hnil, htold, hended⟩ :=
    h.told_of_confides hconfides (by simpa [Registration.isFor] using hc) hwait hhears
  obtain ⟨v, hv⟩ := htold.succeeded children rfl rfl hc hnil
  exact ⟨v, hended _ hv⟩

/-- **Who is told that one of its children has failed knows that it has**, if nobody else waits for
that one. -/
theorem Run.failed_of_confides (h : Run budget (init minted) record s) {children : List FiberId}
    {i : Nat} (hc : children[i]? = some c)
    (hconfides : Confides s record fiber c (.firstFailure children) type) {n : Nat} {w : World}
    {run : RunState}
    (hwait : (eventsOf fiber record)[n]? =
      some (.iterated w run (.eval (.wait (.firstFailure children)))))
    (hhears : Hears s record fiber n run (.done (.some (.int i)))) :
    ∃ g, Ended record c (.halt g) := by
  have hfor : (Registration.firstFailure children).isFor c = true := by
    simpa [Registration.isFor] using List.mem_of_getElem? hc
  obtain ⟨l, store, rfl, hnil, htold, hended⟩ := h.told_of_confides hconfides hfor hwait hhears
  obtain ⟨g, hg⟩ := htold.failed children i rfl rfl hc hnil
  exact ⟨g, hended _ hg⟩

/-! ### A prospect -/

/-- What a fiber is told that alone waits for others. -/
structure Confided (s : Workshop) (record : List (FiberId × Event)) (fiber : FiberId)
    (registration : Registration) (o : Outcome) : Prop where
  /-- An exit is how a fiber has ended. -/
  exit : ∀ {c type type' x first}, registration = .awaitExit c type → o = .done (.exit x) →
    Confides s record fiber c first type' → ∃ o', Ended record c o' ∧ x = o'.untag type
  /-- If none has failed, all have ended with values. -/
  verdict : ∀ {children c type}, registration = .firstFailure children → o = .done .none →
    c ∈ children → Confides s record fiber c registration type → ∃ v, Ended record c (.done v)
  /-- If one has failed, it has ended with a failure. -/
  culprit : ∀ {children c type} {i : Nat}, registration = .firstFailure children →
    o = .done (.some (.int i)) → children[i]? = some c →
      Confides s record fiber c registration type → ∃ g, Ended record c (.halt g)

/-- What is known of a fiber that is not asked to stop, and alone waits for others. -/
def confided (s : Workshop) (record : List (FiberId × Event)) (fiber : FiberId) : Prospect where
  final := s.world.store
  tells := Confided s record fiber
  asked := False
  spared _ := False

/-- Whoever is told an exit has learnt it. -/
theorem Hears.learns {type : ErrorType} {n : Nat} {w : World} {run : RunState}
    (hawaits : Awaits record c type fiber n w run) {x : Exit Value Value}
    (h : Hears s record fiber n run (.done (.exit x))) : Learns s record c (.waiter fiber n) x := by
  cases h with
  | goesOn hnext => exact .goesOn hawaits hnext
  | ready hlength hstands => exact .ready hawaits hlength hstands

/-- What a fiber is told when it waits, of those for which it alone waits. -/
theorem Run.confided_of_hears (h : Run budget (init minted) record s) {n : Nat} {w : World}
    {run : RunState} {registration : Registration} {o : Outcome}
    (hwait : (eventsOf fiber record)[n]? = some (.iterated w run (.eval (.wait registration))))
    (hhears : Hears s record fiber n run o) : Confided s record fiber registration o := by
  refine ⟨fun {c type type' x first} hregistration ho hconfides => ?_,
    fun {children c type} hregistration ho hc hconfides => ?_,
    fun {children c type i} hregistration ho hc hconfides => ?_⟩
  · subst hregistration ho
    obtain ⟨-, rfl, -⟩ := hconfides.position_exit hwait
    exact h.ended_of_learns (hconfides.leftTo hwait) (hhears.learns hwait)
  · subst hregistration ho
    exact h.succeeded_of_confides hc hconfides hwait hhears
  · subst hregistration ho
    exact h.failed_of_confides hc hconfides hwait hhears

/-- **What a fiber is told that is not asked to stop**, of those for which it alone waits. -/
theorem Run.foresees_confided (h : Run budget (init minted) record s)
    (hfree : s.world.store.isInterrupted fiber = false) :
    Foresees s record fiber (confided s record fiber) where
  final := rfl
  tells hwait hhears := h.confided_of_hears hwait hhears
  asked hasked := by
    rw [hfree] at hasked
    cases hasked

end Workshop

end Fibers
