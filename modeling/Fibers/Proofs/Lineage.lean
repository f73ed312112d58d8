import Fibers.Proofs.Accounts

/-!
# Who descends from whom

A fiber is started once, by one that is older.  So those who are started in the course of a story
form a tree, and what is told of two branches of it is done by different fibers.  A number is given
to what is acquired once.  Therefore nothing that is acquired is told of twice.

## Main definitions

* `Workshop.Descends` — who has been started by whom in the end.

## Main results

* `Workshop.Run.forked_lt`, `Workshop.Descends.eq_of_siblings` — those who have been started form a
  tree.
* `Workshop.Told.nodup` — **what is acquired is told of once.**
* `Workshop.Told.evaluated` — the code that is told of has been evaluated.
-/

namespace Fibers

/-- What an event reserves. -/
theorem Event.reservedIn_told (e : Event) (f : FiberId) :
    reservedIn (e.told f) = [] ∨ ∃ w run v release,
      e = .iterated w run (.eval (.reserve v release)) ∧
        reservedIn (e.told f) = [⟨w.releases.next⟩] := by
  have hcalls : ∀ (w : World) (id : ReleaseId) (x : Exit Value Value),
      reservedIn ((w.calls id x).map (f, ·)) = [] := by
    intro w id x
    refine List.filterMap_eq_nil_iff.mpr fun p hp => ?_
    simp only [World.calls, List.map_map, List.mem_map] at hp
    obtain ⟨_, -, rfl⟩ := hp
    rfl
  unfold Event.told Event.episodes
  split
  · exact Or.inr ⟨_, _, _, _, rfl, rfl⟩
  · exact Or.inl (hcalls _ _ _)
  · split
    · split
      · exact Or.inl rfl
      · exact Or.inl (hcalls _ _ _)
    · exact Or.inl rfl
  · exact Or.inl rfl

/-- No event tells of code. -/
theorem Event.not_ran {e : Event} {i : Instruction} {o : Outcome} : .ran i o ∉ e.episodes := by
  have hcalls : ∀ (w : World) (id : ReleaseId) (x : Exit Value Value), .ran i o ∉ w.calls id x := by
    intro w id x hmem
    obtain ⟨_, -, heq⟩ := List.mem_map.mp hmem
    cases heq
  unfold Event.episodes
  split
  · simp
  · exact hcalls _ _ _
  · split
    · split
      · simp
      · exact hcalls _ _ _
    · simp
  · simp

namespace Workshop

variable {budget minted : Nat} {s : Workshop} {record : List (FiberId × Event)}
  {f f' c c' g : FiberId} {n k : Nat} {w w' : World} {run run' : RunState}

/-! ### What is done once -/

theorem Lasting.exists {α : Type} {P : α → World → Prop} (h : ∀ a, Lasting (P a)) :
    Lasting fun w => ∃ a, P a w :=
  fun _ _ _ _ hvalid hmove ⟨a, ha⟩ => ⟨a, h a hvalid hmove ha⟩

/-- **A number is given once** to what is acquired. -/
theorem Run.reserved_once (h : Run budget (init minted) record s) {v v' : Value}
    {release release' : Release}
    (he : (eventsOf f record)[n]? = some (.iterated w run (.eval (.reserve v release))))
    (he' : (eventsOf f' record)[k]? = some (.iterated w' run' (.eval (.reserve v' release'))))
    (hsame : w.releases.next = w'.releases.next) : f = f' ∧ n = k := by
  have hfresh : ∀ w : World, ¬ ∃ r, w.releases.get? w.releases.next = some r := by
    rintro w ⟨r, hr⟩
    rw [Numbered.get?_next] at hr
    cases hr
  have hmade : ∀ (w : World) (f : FiberId) (run : RunState) (v : Value) (release : Release),
      ∃ r, (w.carryOut f ((Step.eval (.reserve v release)).plan (w.pending f) f run)).2.releases.get?
        w.releases.next = some r := fun w f run v release =>
    ⟨release, (Numbered.get?_push _ _ _).trans (if_pos rfl)⟩
  refine h.made_once (Lasting.exists fun r => lasting_release w.releases.next r) he (hfresh w)
    (hmade w f run v release) he' ?_ ?_
  · rw [hsame]
    exact hfresh w'
  · rw [hsame]
    exact hmade w' f' run' v' release'

/-- **A fiber is started once.** -/
theorem Run.forked_once (h : Run budget (init minted) record s) {e e' : Event} {daemon daemon' : Bool}
    (he : (eventsOf f record)[n]? = some e) (hstarts : e.starts? = some (c, daemon))
    (he' : (eventsOf f' record)[k]? = some e') (hstarts' : e'.starts? = some (c, daemon')) :
    f = f' ∧ n = k := by
  obtain ⟨w, run, i, rfl, rfl⟩ := Event.of_starts hstarts
  obtain ⟨w', run', i', rfl, hsame⟩ := Event.of_starts hstarts'
  have hfresh : ∀ w : World, ¬ (w.store.fiber? w.store.nextFiber).isSome := by
    intro w hborn
    rw [show w.store.fiber? w.store.nextFiber = none from Numbered.get?_next _] at hborn
    cases hborn
  refine h.made_once (lasting_born w.store.nextFiber) he (hfresh w)
    (w.born_fork f run i daemon (Or.inr rfl)) he' ?_ ?_
  · rw [hsame]
    exact hfresh w'
  · rw [hsame]
    exact w'.born_fork f' run' i' daemon' (Or.inr rfl)

/-! ### Ancestors -/

/-- A fiber is older than those whom it starts. -/
theorem Run.forked_lt (h : Run budget (init minted) record s) {daemon : Bool}
    (hforked : Forked record daemon f c) : f.raw < c.raw := by
  obtain ⟨e, hmem, hstarts⟩ := hforked
  obtain ⟨w, run, i, rfl, rfl⟩ := Event.of_starts hstarts
  obtain ⟨r, hr, -⟩ := Option.map_eq_some_iff.mp (h.phase_of_iterated hmem)
  exact Numbered.lt_next_of_get? hr

/-- One fiber is another one, or has been started by somebody who descends from it. -/
abbrev Descends (record : List (FiberId × Event)) : FiberId → FiberId → Prop :=
  Relation.ReflTransGen (Forked record false)

namespace Descends

theorem le (h : Run budget (init minted) record s) (hdescends : Descends record f g) :
    f.raw ≤ g.raw := by
  induction hdescends with
  | refl => exact Nat.le_refl _
  | tail _ hforked ih =>
    have := h.forked_lt hforked
    omega

/-- Nobody descends from a fiber that it has started. -/
theorem irrefl (h : Run budget (init minted) record s) (hforked : Forked record false f c) :
    ¬ Descends record c f := by
  intro hdescends
  have := h.forked_lt hforked
  have := le h hdescends
  omega

/-- **Two branches have nobody in common.** -/
theorem eq_of_siblings (h : Run budget (init minted) record s) (hforked : Forked record false f c)
    (hforked' : Forked record false f c') (hdescends : Descends record c g)
    (hdescends' : Descends record c' g) : c = c' := by
  induction hdescends with
  | refl =>
    cases hdescends' with
    | refl => rfl
    | tail hearlier hlast =>
      -- who has started it descends from the other one
      obtain ⟨rfl, -⟩ := h.supervised.once hforked hlast
      exact absurd hearlier (irrefl h hforked')
  | @tail p g hearlier hlast ih =>
    cases hdescends' with
    | refl =>
      obtain ⟨rfl, -⟩ := h.supervised.once hforked' hlast
      exact absurd hearlier (irrefl h hforked)
    | tail hearlier' hlast' =>
      obtain ⟨rfl, -⟩ := h.supervised.once hlast hlast'
      exact ih hearlier'

end Descends

/-! ### What is told of once -/

/-- What has been acquired by a fiber from its `n`-th doing on, or by those whom it has started since
then. -/
def AcquiredSince (record : List (FiberId × Event)) (f : FiberId) (n : Nat) (id : ReleaseId) : Prop :=
  ∃ g k w run v release,
    (eventsOf g record)[k]? = some (.iterated w run (.eval (.reserve v release))) ∧
      id = ⟨w.releases.next⟩ ∧ (g = f ∧ n ≤ k ∨ ∃ c j e, n ≤ j ∧
        (eventsOf f record)[j]? = some e ∧ e.starts? = some (c, false) ∧ Descends record c g)

theorem AcquiredSince.mono {id : ReleaseId} (h : AcquiredSince record f n id) (hle : k ≤ n) :
    AcquiredSince record f k id := by
  obtain ⟨g, j, w, run, v, release, he, hid, hwhere⟩ := h
  refine ⟨g, j, w, run, v, release, he, hid, ?_⟩
  rcases hwhere with ⟨rfl, hj⟩ | ⟨c, j', e, hj', hrest⟩
  · exact Or.inl ⟨rfl, hle.trans hj⟩
  · exact Or.inr ⟨c, j', e, hle.trans hj', hrest⟩

/-- What has been acquired since the start of a child by the child and those who descend from it. -/
theorem AcquiredSince.of_child {id : ReleaseId} {e : Event} {m : Nat}
    (h : AcquiredSince record c m id) (he : (eventsOf f record)[n]? = some e)
    (hstarts : e.starts? = some (c, false)) : AcquiredSince record f n id := by
  obtain ⟨g, j, w, run, v, release, hget, hid, hwhere⟩ := h
  refine ⟨g, j, w, run, v, release, hget, hid, Or.inr ⟨c, n, e, Nat.le_refl _, he, hstarts, ?_⟩⟩
  rcases hwhere with ⟨rfl, -⟩ | ⟨c', j', e', -, he', hstarts', hdescends⟩
  · exact .refl
  · exact .head ⟨e', mem_eventsOf.mp (List.mem_of_getElem? he'), hstarts'⟩ hdescends

/-- What has been acquired twice has been acquired by the same fiber at the same time. -/
theorem AcquiredSince.eq_place {id : ReleaseId} {v : Value} {release : Release}
    (h : AcquiredSince record f n id) (hrun : Run budget (init minted) record s)
    (he : (eventsOf f' record)[k]? = some (.iterated w run (.eval (.reserve v release))))
    (hid : id = ⟨w.releases.next⟩) : f' = f ∧ n ≤ k ∨ ∃ c j e, n ≤ j ∧
      (eventsOf f record)[j]? = some e ∧ e.starts? = some (c, false) ∧ Descends record c f' := by
  obtain ⟨g, j, w', run', v', release', he', rfl, hwhere⟩ := h
  obtain ⟨rfl, rfl⟩ := hrun.reserved_once he he' (ReleaseId.mk.inj hid).symm
  exact hwhere

/-- **What is acquired is told of once**, and has been acquired in the course of the story. -/
theorem Told.nodup {es : List Event} {st : Story} (h : Told s record f es st)
    (hrun : Run budget (init minted) record s) {past after : List Event} {a : Standing}
    (hhistory : History s record f (past ++ (es ++ after)) a) :
    (reservedIn st).Nodup ∧ ∀ id ∈ reservedIn st, AcquiredSince record f (doingsIn past) id := by
  -- what follows on some events comes later
  have hlater : ∀ (past es : List Event), doingsIn past ≤ doingsIn (past ++ es) := by
    intro past es
    rw [doingsIn_append]
    exact Nat.le_add_right _ _
  induction h generalizing past after a with
  | rest => exact ⟨List.nodup_nil, nofun⟩
  | @event f e es st hstarts _ ih =>
    have hhistory' : History s record f ((past ++ [e]) ++ (es ++ after)) a := by simpa using hhistory
    obtain ⟨hnodup, hsince⟩ := ih hhistory'
    rw [reservedIn_append]
    rcases e.reservedIn_told f with hnone | ⟨w, run, v, release, rfl, hone⟩
    · rw [hnone]
      exact ⟨hnodup, fun id hid => (hsince id hid).mono (hlater past _)⟩
    · have hget := hhistory.getElem?_doing rfl
      have hlength : doingsIn (past ++ [.iterated w run (.eval (.reserve v release))]) =
          doingsIn past + 1 := doingsIn_append past _
      rw [hone]
      refine ⟨List.nodup_cons.mpr ⟨fun hid => ?_, hnodup⟩, fun id hid => ?_⟩
      · -- what it acquires later has another number, and those who descend from it are others
        rcases (hsince _ hid).eq_place hrun hget rfl with ⟨-, hle⟩ | ⟨c, j, e, -, he, hstarts, hdesc⟩
        · omega
        · exact (Descends.irrefl hrun ⟨e, mem_eventsOf.mp (List.mem_of_getElem? he), hstarts⟩) hdesc
      · rcases List.mem_cons.mp hid with rfl | hid
        · exact ⟨f, _, w, run, v, release, hget, rfl, Or.inl ⟨rfl, Nat.le_refl _⟩⟩
        · exact (hsince id hid).mono (hlater past _)
  | @code f base i during es o st _ _ _ ih =>
    have hhistory' : History s record f ((past ++ during) ++ (es ++ after)) a := by
      simpa using hhistory
    obtain ⟨hnodup, hsince⟩ := ih hhistory'
    exact ⟨hnodup, fun id hid => (hsince id hid).mono (hlater past _)⟩
  | @going f c e es st _ _ _ ih =>
    have hhistory' : History s record f ((past ++ [e]) ++ (es ++ after)) a := by simpa using hhistory
    obtain ⟨hnodup, hsince⟩ := ih hhistory'
    exact ⟨hnodup, fun id hid => (hsince id hid).mono (hlater past _)⟩
  | @child f c e first es life o st later hstarts hborn _ _ ihchild ih =>
    have hhistory' : History s record f ((past ++ [e]) ++ (es ++ after)) a := by simpa using hhistory
    have hdoing : e.isDoing = true := by
      cases e with
      | iterated _ _ _ => rfl
      | started _ _ _ | stopped _ | resumed _ | cancelled _ => cases hstarts
    have hget := hhistory.getElem?_doing hdoing
    have hlength : doingsIn (past ++ [e]) = doingsIn past + 1 := by
      rw [doingsIn_append, doingsIn, doingsIn, List.filter_cons_of_pos hdoing]
      rfl
    have hforked : Forked record false f c :=
      ⟨e, mem_eventsOf.mp (List.mem_of_getElem? hget), hstarts⟩
    obtain ⟨hnodup, hsince⟩ := ih hhistory'
    have hborn' : History s record c ([first] ++ (life ++ [])) (.ended o) := by simpa using hborn
    obtain ⟨hnodup', hsince'⟩ := ihchild hborn'
    rw [reservedIn_started, reservedIn_append]
    refine ⟨List.nodup_append.mpr ⟨hnodup', hnodup, fun id hid id' hid' => ?_⟩, fun id hid => ?_⟩
    · rintro rfl
      -- the child and those who descend from it are others than those who come later
      obtain ⟨g, k, w, run, v, release, hplace, hid'', hwhere⟩ := hsince' id hid
      have hdesc : Descends record c g := by
        rcases hwhere with ⟨rfl, -⟩ | ⟨c', j', e', -, he', hstarts', hdesc⟩
        · exact .refl
        · exact .head ⟨e', mem_eventsOf.mp (List.mem_of_getElem? he'), hstarts'⟩ hdesc
      rcases (hsince id hid').eq_place hrun hplace hid'' with
        ⟨rfl, -⟩ | ⟨c', j, e', hj, he', hstarts', hdesc'⟩
      · exact Descends.irrefl hrun hforked hdesc
      · have hforked' : Forked record false f c' :=
          ⟨e', mem_eventsOf.mp (List.mem_of_getElem? he'), hstarts'⟩
        obtain rfl := Descends.eq_of_siblings hrun hforked hforked' hdesc hdesc'
        have := (hrun.forked_once hget hstarts he' hstarts').2
        omega
    · rcases List.mem_append.mp hid with hid | hid
      · exact (hsince' id hid).of_child hget hstarts
      · exact (hsince id hid).mono (hlater past _)

/-- What an evaluation tells of has been acquired once. -/
theorem Told.nodup_of_evaluated {base : RunState} {i : Instruction} {during : List Event}
    {o : Outcome} {st : Story} (h : Told s record f during st) (hrun : Run budget (init minted) record s)
    (hdone : Evaluated s record f base i during o) : (reservedIn st).Nodup := by
  obtain ⟨-, -, -, hhistory⟩ := hdone
  exact (h.nodup hrun hhistory).1

/-! ### What has been evaluated -/

/-- **The code that is told of has been evaluated**, where interruption is not allowed. -/
theorem Told.evaluated {es : List Event} {st : Story} {i : Instruction} {o : Outcome}
    (h : Told s record f es st) (hmem : (g, .ran i o) ∈ st) :
    ∃ base during, base.interruptible = false ∧ Evaluated s record g base i during o := by
  induction h with
  | rest => cases hmem
  | @event f e es st _ _ ih =>
    rcases List.mem_append.mp hmem with hevent | hlater
    · -- an event tells of no code
      obtain ⟨episode, hepisode, heq⟩ := List.mem_map.mp hevent
      obtain ⟨-, rfl⟩ := Prod.mk.inj heq
      exact (e.not_ran hepisode).elim
    · exact ih hlater
  | @code f base i' during es o' st hfalse hran _ ih =>
    rcases List.mem_cons.mp hmem with heq | hlater
    · obtain ⟨rfl, hsame⟩ := Prod.mk.inj heq
      obtain ⟨rfl, rfl⟩ := Episode.ran.inj hsame
      exact ⟨base, during, hfalse, hran⟩
    · exact ih hlater
  | going _ _ _ ih => exact ih ((List.mem_cons.mp hmem).resolve_left (by simp))
  | child _ _ _ _ ihchild ih =>
    rcases List.mem_append.mp ((List.mem_cons.mp hmem).resolve_left (by simp)) with hearly | hlater
    · exact ihchild hearly
    · exact ih hlater

end Workshop

end Fibers
