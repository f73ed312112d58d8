import Fibers.Proofs.TypedWorld
import Fibers.Proofs.Influence

/-!
# Types are preserved
-/

namespace Fibers

variable {S : Declarations} {Γ Γ' : Context} {τ : Ty}

/-! ### Channels -/

namespace Channel.Typed

variable {ch : Channel Value SuspensionId} (live : SuspensionId → Bool)

theorem new (capacity : Option Nat) : ({ capacity } : Channel Value SuspensionId).Typed S Γ τ :=
  ⟨nofun, nofun, nofun, nofun⟩

theorem nextTaker (h : ch.Typed S Γ τ) :
    (ch.nextTaker live).2.Typed S Γ τ ∧ ∀ s, (ch.nextTaker live).1 = some s → Γ.Tells s τ := by
  have hsublist := List.dropWhile_sublist (l := ch.takers) fun taker => !live taker.2
  unfold Channel.nextTaker
  split
  · exact ⟨⟨h.buffer, nofun, h.offerers, h.watchers⟩, nofun⟩
  · next taker rest heq =>
    rw [heq] at hsublist
    refine ⟨⟨h.buffer, fun e he => ?_, h.offerers, h.watchers⟩, fun s hs => ?_⟩
    · exact h.takers e (hsublist.subset (List.mem_cons_of_mem _ he))
    · obtain rfl := Option.some.inj hs
      exact h.takers taker (hsublist.subset List.mem_cons_self)

theorem offer? {v : Value} (h : ch.Typed S Γ τ) (hv : v.HasTy S Γ τ) :
    (ch.offer? live v).2.Typed S Γ τ ∧
      ∀ s, (ch.offer? live v).1 = .handedTo s → Γ.Tells s τ := by
  obtain ⟨hnext, htells⟩ := h.nextTaker live
  unfold Channel.offer?
  split
  · exact ⟨h, nofun⟩
  · split
    · next s ch' heq =>
      rw [heq] at hnext htells
      refine ⟨hnext, fun s' hs' => ?_⟩
      obtain rfl := Offered.handedTo.inj hs'
      exact htells s rfl
    · next ch' heq =>
      rw [heq] at hnext
      split
      · refine ⟨⟨fun v' hv' => ?_, hnext.takers, hnext.offerers, hnext.watchers⟩, nofun⟩
        rw [Fifo.toList_push, List.mem_append, List.mem_singleton] at hv'
        rcases hv' with hmem | rfl
        · exact hnext.buffer v' hmem
        · exact hv
      · exact ⟨hnext, nofun⟩

theorem moveUp (h : ch.Typed S Γ τ) :
    (ch.moveUp live).2.Typed S Γ τ ∧ ∀ s, (ch.moveUp live).1 = some s → Γ.Tells s .unit := by
  have hsublist := List.dropWhile_sublist (l := ch.offerers) fun offerer => !live offerer.2.2
  unfold Channel.moveUp
  split
  · exact ⟨⟨h.buffer, h.takers, nofun, h.watchers⟩, nofun⟩
  · next ticket v place rest heq =>
    rw [heq] at hsublist
    obtain ⟨hv, htells⟩ := h.offerers _ (hsublist.subset List.mem_cons_self)
    refine ⟨⟨fun v' hv' => ?_, h.takers, fun e he => ?_, h.watchers⟩, fun s hs => ?_⟩
    · rw [Fifo.toList_push, List.mem_append, List.mem_singleton] at hv'
      rcases hv' with hmem | rfl
      · exact h.buffer v' hmem
      · exact hv
    · exact h.offerers e (hsublist.subset (List.mem_cons_of_mem _ he))
    · obtain rfl := Option.some.inj hs
      exact htells

theorem take? (h : ch.Typed S Γ τ) :
    (ch.take? live).2.Typed S Γ τ ∧ ∀ v admitted, (ch.take? live).1 = .element v admitted →
      v.HasTy S Γ τ ∧ ∀ s, admitted = some s → Γ.Tells s .unit := by
  unfold Channel.take?
  split
  · exact ⟨h, nofun⟩
  · split
    · exact ⟨h, nofun⟩
    · next a buffer hpop =>
      have hlist := Fifo.toList_of_pop? hpop
      have hrest : ({ ch with buffer } : Channel Value SuspensionId).Typed S Γ τ :=
        ⟨fun v hv => h.buffer v (hlist ▸ List.mem_cons_of_mem _ hv), h.takers, h.offerers,
          h.watchers⟩
      obtain ⟨hmoved, htells⟩ := hrest.moveUp live
      refine ⟨hmoved, fun v admitted heq => ?_⟩
      obtain ⟨rfl, rfl⟩ := Taken.element.inj heq
      exact ⟨h.buffer a (hlist ▸ List.mem_cons_self), htells⟩

theorem enqueueOfferer {v : Value} {s : SuspensionId} (h : ch.Typed S Γ τ)
    (hv : v.HasTy S Γ τ) (hs : Γ.Tells s .unit) : (ch.enqueueOfferer v s).2.Typed S Γ τ where
  buffer := h.buffer
  takers := h.takers
  offerers := List.forall_mem_append.mpr
    ⟨h.offerers, List.forall_mem_singleton.mpr ⟨hv, hs⟩⟩
  watchers := h.watchers

theorem enqueueTaker {s : SuspensionId} (h : ch.Typed S Γ τ) (hs : Γ.Tells s τ) :
    (ch.enqueueTaker s).2.Typed S Γ τ where
  buffer := h.buffer
  takers := List.forall_mem_append.mpr ⟨h.takers, List.forall_mem_singleton.mpr hs⟩
  offerers := h.offerers
  watchers := h.watchers

theorem enqueueWatcher {s : SuspensionId} (h : ch.Typed S Γ τ) (hs : Γ.Tells s .unit) :
    (ch.enqueueWatcher s).2.Typed S Γ τ where
  buffer := h.buffer
  takers := h.takers
  offerers := h.offerers
  watchers := List.forall_mem_append.mpr ⟨h.watchers, List.forall_mem_singleton.mpr hs⟩

theorem leave (h : ch.Typed S Γ τ) (line : Line) (ticket : Nat) :
    (ch.leave line ticket).Typed S Γ τ := by
  cases line with
  | takers =>
    exact ⟨h.buffer, fun e he => h.takers e (List.mem_filter.mp he).1, h.offerers, h.watchers⟩
  | offerers =>
    exact ⟨h.buffer, h.takers, fun e he => h.offerers e (List.mem_filter.mp he).1, h.watchers⟩
  | watchers =>
    exact ⟨h.buffer, h.takers, h.offerers, fun e he => h.watchers e (List.mem_filter.mp he).1⟩

end Channel.Typed

namespace World.Typed

variable {w : World}

/-! ### Small changes -/

/-- A fiber that runs is made ready. -/
theorem schedule {fiber : FiberId} {run : RunState} {step : Step} (h : w.Typed S Γ)
    (hruns : Runs S Γ fiber run step) : (w.schedule fiber run step).Typed S Γ where
  store := h.store
  places := h.places
  tasks t ht := by
    rw [World.schedule, Fifo.toList_push, List.mem_append, List.mem_singleton] at ht
    rcases ht with hmem | rfl
    · exact h.tasks t hmem
    · exact hruns
  releases := h.releases
  owner := h.owner

/-- A wait comes further. -/
theorem setSuspension {s : SuspensionId} {state : SuspensionState} (h : w.Typed S Γ)
    (hstate : ∀ e p, Γ.places s.index = some e → w.suspension? s = some p →
      ({ p with state } : Suspension).Typed S Γ e) : (w.setSuspension s state).Typed S Γ where
  store := h.store
  places := h.places.modify fun e p he hp _ => hstate e p he hp
  tasks := h.tasks
  releases := h.releases
  owner {fiber r t} hr ht := by
    obtain ⟨p, hp, hfiber⟩ := h.owner hr ht
    rw [World.suspension?_setSuspension]
    split
    · next heq =>
      subst heq
      exact ⟨{ p with state }, by rw [hp]; rfl, hfiber⟩
    · exact ⟨p, hp, hfiber⟩

/-- What is known of a fiber changes; at most its place is forgotten. -/
theorem modifyFiber {id : FiberId} {f : FiberRecord → FiberRecord} (h : w.Typed S Γ)
    (hf : ∀ e r, Γ.fibers id.raw = some e → r.Typed S Γ e → (f r).Typed S Γ e)
    (hplace : ∀ r, (f r).suspension = r.suspension ∨ (f r).suspension = none) :
    (w.modifyFiber id f).Typed S Γ where
  store := { h.store with fibers := h.store.fibers.modify fun e r he _ hr => hf e r he hr }
  places := h.places
  tasks := h.tasks
  releases := h.releases
  owner {fiber r s} hr hs := by
    simp only [World.modifyFiber, Store.fiber?_modifyFiber] at hr
    split at hr
    · next heq =>
      subst heq
      obtain ⟨r', hr', rfl⟩ := Option.map_eq_some_iff.mp hr
      rcases hplace r' with heq | hnone
      · exact h.owner hr' (heq ▸ hs)
      · rw [hnone] at hs
        cases hs
    · exact h.owner hr hs

/-- Data other than that of fibers changes. -/
theorem withStore {store : Store} (h : w.Typed S Γ) (hstore : store.Keeps S Γ Γ)
    (hfibers : store.fibers = w.store.fibers) : ({ w with store } : World).Typed S Γ where
  store := hstore
  places := h.places
  tasks := h.tasks
  releases := h.releases
  owner {fiber r s} hr hs := by
    rw [Store.fiber?, hfibers] at hr
    exact h.owner hr hs

theorem setChannel {c : ChannelId} {ch : Channel Value SuspensionId} (h : w.Typed S Γ)
    (hch : ∀ τ, Γ.channels c.index = some τ → ch.Typed S Γ τ) :
    ({ w with store := w.store.setChannel c ch } : World).Typed S Γ :=
  h.withStore { h.store with channels := h.store.channels.modify fun τ _ hτ _ _ => hch τ hτ } rfl

/-! ### Completing a wait -/

theorem resume {s : SuspensionId} {o : Outcome} (h : w.Typed S Γ)
    (ho : ∀ e, Γ.places s.index = some e → Outcome.Fits S Γ e o) :
    (w.resume s o).2.Typed S Γ := by
  unfold World.resume
  cases hs : w.suspension? s with
  | none => exact h
  | some place =>
    obtain ⟨e, he, hplace⟩ := h.places.of_get? hs
    have hsame : ∀ {e'}, Γ.places s.index = some e' → e' = e := fun he' =>
      Option.some.inj (he'.symm.trans he)
    unfold Suspension.Typed at hplace
    cases hstate : place.state with
    | registering =>
      simp only [hstate]
      exact h.setSuspension fun e' p he' _ => ho e' he'
    | waiting run onInterrupt =>
      simp only [hstate] at hplace ⊢
      obtain ⟨-, root, ρ, hroot, hrun⟩ := hplace
      have hover : (w.setSuspension s .over).Typed S Γ := h.setSuspension fun _ _ _ _ => trivial
      exact hover.schedule ⟨root, _, hroot, hrun, Step.typed_ofOutcome (ho e he)⟩
    | _ =>
      simp only [hstate]
      exact h

/-- Who waits is told a value of the type that he waits for. -/
theorem tell {s : SuspensionId} {v : Value} (h : w.Typed S Γ) (hs : Γ.Tells s τ)
    (hv : v.HasTy S Γ τ) : (w.resume s (.done v)).2.Typed S Γ := by
  obtain ⟨ε, hplace⟩ := hs
  refine h.resume fun e he => ?_
  obtain rfl := Option.some.inj (he.symm.trans hplace)
  exact hv

/-- Who waits may always be told that the wait is over for an interruption. -/
theorem refuse {s : SuspensionId} (h : w.Typed S Γ) (source : FiberId) :
    (w.resume s (.interrupt source)).2.Typed S Γ :=
  h.resume fun e _ => Outcome.fits_interrupt source e

theorem tellAll {places : List SuspensionId} (h : w.Typed S Γ)
    (hplaces : ∀ s ∈ places, Γ.Tells s .unit) : (w.resumeAll places (.done .unit)).Typed S Γ := by
  unfold World.resumeAll
  induction places generalizing w with
  | nil => exact h
  | cons s places ih =>
    obtain ⟨hs, hplaces⟩ := List.forall_mem_cons.mp hplaces
    exact ih (h.tell hs .unit) hplaces

theorem refuseAll {places : List SuspensionId} (h : w.Typed S Γ) (source : FiberId) :
    (w.resumeAll places (.interrupt source)).Typed S Γ := by
  unfold World.resumeAll
  induction places generalizing w with
  | nil => exact h
  | cons s places ih => exact ih (h.refuse source)

theorem answer {s : SuspensionId} {o : Outcome} (h : w.Typed S Γ)
    (ho : ∀ e, Γ.places s.index = some e → Outcome.Fits S Γ e o) :
    (w.answer s o).2.Typed S Γ := by
  unfold World.answer
  split
  · exact h.resume ho
  · exact h

/-! ### Channels -/

theorem takeElement {c : ChannelId} {ch : Channel Value SuspensionId} (h : w.Typed S Γ)
    (hc : Γ.channels c.index = some τ) (hch : ch.Typed S Γ τ) :
    (w.takeElement c ch).2.Typed S Γ ∧ ∀ v, (w.takeElement c ch).1 = some v → v.HasTy S Γ τ := by
  obtain ⟨htaken, helement⟩ := hch.take? w.isLive
  unfold World.takeElement
  split
  · next v admitted ch' heq =>
    rw [heq] at htaken helement
    obtain ⟨hv, hadmitted⟩ := helement v admitted rfl
    refine ⟨(h.setChannel fun τ' hτ' => ?_).tellAll fun s hs =>
      hadmitted s (Option.mem_toList.mp hs), fun v' hv' => Option.some.inj hv' ▸ hv⟩
    exact Option.some.inj (hc.symm.trans hτ') ▸ htaken
  · exact ⟨h, nofun⟩

theorem takeUpTo {c : ChannelId} (h : w.Typed S Γ) (hc : Γ.channels c.index = some τ)
    (limit : Nat) :
    (w.takeUpTo c limit).2.Typed S Γ ∧ ∀ v ∈ (w.takeUpTo c limit).1, v.HasTy S Γ τ := by
  induction limit generalizing w with
  | zero => exact ⟨h, nofun⟩
  | succ limit ih =>
    unfold World.takeUpTo
    split
    · exact ⟨h, nofun⟩
    · next ch hch =>
      obtain ⟨τ', hτ', htyped⟩ := h.store.channels.of_get? hch
      obtain rfl := Option.some.inj (hc.symm.trans hτ')
      obtain ⟨hnext, helement⟩ := h.takeElement hc htyped
      split
      · next w' heq =>
        rw [heq] at hnext
        exact ⟨hnext, nofun⟩
      · next v w' heq =>
        rw [heq] at hnext helement
        obtain ⟨hlast, hrest⟩ := ih hnext
        exact ⟨hlast, List.forall_mem_cons.mpr ⟨helement v rfl, hrest⟩⟩

theorem drain {c : ChannelId} (h : w.Typed S Γ) (hc : Γ.channels c.index = some τ)
    (limit : Option Nat) :
    (w.drain c limit).2.Typed S Γ ∧
      ∀ vs, (w.drain c limit).1 = .ok vs → ∀ v ∈ vs, v.HasTy S Γ τ := by
  unfold World.drain
  split
  · refine ⟨h, fun vs hvs => ?_⟩
    obtain rfl := Except.ok.inj hvs
    exact nofun
  · split
    · exact ⟨h, nofun⟩
    · next ch _ _ _ =>
      obtain ⟨hlast, hvs⟩ := h.takeUpTo hc (min ch.size (limit.getD ch.size))
      exact ⟨hlast, fun vs heq => Except.ok.inj heq ▸ hvs⟩

theorem close (c : ChannelId) (source : FiberId) (h : w.Typed S Γ) :
    (w.close c source).Typed S Γ := by
  unfold World.close
  split
  · exact h
  · next closing ch heq =>
    obtain ⟨ch₀, hch₀, hclose⟩ := Option.bind_eq_some_iff.mp heq
    obtain ⟨τ, hτ, htyped⟩ := h.store.channels.of_get? hch₀
    unfold Channel.close at hclose
    split at hclose
    · cases hclose
    · obtain ⟨rfl, rfl⟩ := Prod.mk.inj (Option.some.inj hclose)
      refine ((h.setChannel fun _ _ => ?_).refuseAll source).tellAll ?_
      · exact ⟨by simp, by simp, by simp, by simp⟩
      intro s hs
      obtain ⟨e, he, rfl⟩ := List.mem_map.mp hs
      exact htyped.watchers e he

/-! ### Actions -/

/-- **A typed operation leaves a typed world and has a typed reply.** -/
theorem perform {op : Operation} {R : Context → op.Reply → Prop} (h : w.Typed S Γ)
    (hop : op.Grants S Γ R) :
    ∃ Γ', Γ ≤ Γ' ∧ (w.perform op).2.Typed S Γ' ∧ R Γ' (w.perform op).1 := by
  cases hop with
  | observe =>
    refine ⟨Γ, le_rfl, h, fun hn => h.store.cells.there hn, fun hn => ?_, h.store.handles⟩
    obtain ⟨ch, hch, -⟩ := h.store.channels.there hn
    exact ⟨ch, hch⟩
  | log note => exact ⟨Γ, le_rfl, h.withStore { h.store with } rfl, trivial⟩
  | @newCell τ v hv =>
    have hfresh := h.store.cells.next_eq_none
    have hle : Γ ≤ { Γ with cells := Function.update Γ.cells w.store.cells.next (some τ) } :=
      ⟨.refl _, .refl _, Context.extends_update hfresh τ, .refl _, .refl _, .refl _⟩
    have hlater := h.mono hle
    refine ⟨_, hle, ?_, Function.update_self ..⟩
    exact ⟨{ hlater.store with cells := hlater.store.cells.declare (hv.mono hle) }, hlater.places,
      hlater.tasks, hlater.releases, hlater.owner⟩
  | writeCell hcell hv =>
    refine ⟨Γ, le_rfl, h.withStore { h.store with
      cells := h.store.cells.modify fun τ c hτ _ _ => ?_ } rfl, trivial⟩
    exact Option.some.inj (hcell.symm.trans hτ) ▸ hv
  | newChannel τ capacity =>
    simp only [World.perform, Channel.new]
    split
    · next heq =>
      split at heq
      · cases heq
        exact ⟨Γ, le_rfl, h, nofun⟩
      · cases heq
    · next ch heq =>
      split at heq
      · cases heq
      · obtain rfl := Except.ok.inj heq
        have hfresh := h.store.channels.next_eq_none
        have hle : Γ ≤ { Γ with
            channels := Function.update Γ.channels w.store.channels.next (some τ) } :=
          ⟨.refl _, .refl _, .refl _, Context.extends_update hfresh τ, .refl _, .refl _⟩
        have hlater := h.mono hle
        refine ⟨_, hle, ?_, fun channel hchannel => ?_⟩
        · exact ⟨{ hlater.store with channels := hlater.store.channels.declare (.new capacity) },
            hlater.places, hlater.tasks, hlater.releases, hlater.owner⟩
        · obtain rfl := Except.ok.inj hchannel
          exact Function.update_self ..
  | drain limit hchannel =>
    obtain ⟨hlast, hvs⟩ := h.drain hchannel limit
    exact ⟨Γ, le_rfl, hlast, hvs⟩
  | close channel source => exact ⟨Γ, le_rfl, h.close channel source, trivial⟩
  | complete hplace ho =>
    refine ⟨Γ, le_rfl, h.answer fun e he => ?_, trivial⟩
    exact Option.some.inj (hplace.symm.trans he) ▸ ho
  | keep hplace =>
    refine ⟨Γ, le_rfl, h.withStore { h.store with handles := ?_ } rfl, trivial⟩
    exact List.forall_mem_cons.mpr
      ⟨hplace, fun p hp => h.store.handles p (List.mem_filter.mp hp).1⟩
  | newMark => exact ⟨Γ, le_rfl, h.withStore { h.store with } rfl, trivial⟩
  | useMark mark => exact ⟨Γ, le_rfl, h.withStore { h.store with } rfl, trivial⟩
  | @newLease t release hrelease =>
    have hfresh := h.store.leases.next_eq_none
    have hle : Γ ≤ { Γ with leases := Function.update Γ.leases w.store.leases.next (some t) } :=
      ⟨.refl _, .refl _, .refl _, .refl _, .refl _, Context.extends_update hfresh t⟩
    have hlater := h.mono hle
    refine ⟨_, hle, ?_, Function.update_self ..⟩
    exact ⟨{ hlater.store with leases := hlater.store.leases.declare hrelease }, hlater.places,
      hlater.tasks, hlater.releases, hlater.owner⟩

end World.Typed

/-- What comes of a typed action. -/
def Action.Yields {J α : Type} (S : Declarations) (Q : Context → J → α → Prop) (Γ : Context)
    (j : J) : Except Defect α → Prop
  | .ok a => Q Γ j a
  | .error d => S.defect d

namespace World.Typed

variable {w : World}

/-- **A typed action leaves a typed world and ends as it should.** -/
theorem run {J α : Type} {Q : Context → J → α → Prop} {j : J} {a : Action α}
    (ha : a.Safe S Q Γ j) (h : w.Typed S Γ) :
    ∃ Γ', Γ ≤ Γ' ∧ (a.run w).2.Typed S Γ' ∧ Action.Yields S Q Γ' j (a.run w).1 := by
  induction ha generalizing w with
  | done ha => exact ⟨_, le_rfl, h, ha⟩
  | panic hd => exact ⟨_, le_rfl, h, hd⟩
  | perform hop _ ih =>
    obtain ⟨Γ₁, h₁, hperformed, hreply⟩ := h.perform hop
    obtain ⟨Γ₂, h₂, hrun, hyields⟩ := ih Γ₁ h₁ _ hreply hperformed
    exact ⟨Γ₂, h₁.trans h₂, hrun, hyields⟩

end World.Typed

/-! ### Updates -/

/-- What comes of a typed attempt to update a cell. -/
def Attempt.Fits (S : Declarations) (Γ : Context) (τ : Ty) : Attempt → Prop
  | .finished v => v.HasTy S Γ τ
  | .panicked d => S.defect d
  | .overtaken => True

namespace World.Typed

variable {w : World} {τ' : Ty}

theorem commitUpdate {cell : CellId} {u : Update Value} (h : w.Typed S Γ)
    (hcell : Γ.cells cell.index = some τ) (hu : u.Fits S Γ (τ, τ')) (version : Nat) :
    (w.commitUpdate cell version u).2.Typed S Γ ∧
      (w.commitUpdate cell version u).1.Fits S Γ τ' := by
  unfold World.commitUpdate
  split
  · exact ⟨h, hu.result⟩
  · next v hv =>
    split
    · exact ⟨h, trivial⟩
    · next written heq =>
      obtain ⟨c, -, hcommit⟩ := Option.bind_eq_some_iff.mp heq
      have hwritten : written.value = v := by
        unfold Cell.commit at hcommit
        split at hcommit
        · rw [← Option.some.inj hcommit]
          rfl
        · cases hcommit
      refine ⟨h.withStore { h.store with
        cells := h.store.cells.modify fun τ₁ _ hτ₁ _ _ => ?_ } rfl, hu.result⟩
      rw [hwritten]
      exact Option.some.inj (hcell.symm.trans hτ₁) ▸ hu.next v hv

theorem attemptUpdate {cell : CellId} {f : Value → Action (Update Value)} (h : w.Typed S Γ)
    (hcell : Γ.cells cell.index = some τ)
    (hf : ∀ Γ', Γ ≤ Γ' → ∀ v, v.HasTy S Γ' τ → (f v).Safe S (Update.Fits S) Γ' (τ, τ')) :
    ∃ Γ', Γ ≤ Γ' ∧ (w.attemptUpdate cell f).2.Typed S Γ' ∧
      (w.attemptUpdate cell f).1.Fits S Γ' τ' := by
  obtain ⟨c, hc, hv⟩ := h.store.cells.there hcell
  obtain ⟨Γ', hle, hrun, hyields⟩ := run (hf Γ le_rfl c.value hv) h
  have hfound : w.store.cell? cell = some c := hc
  simp only [World.attemptUpdate, hfound]
  split
  · next d w' heq =>
    rw [heq] at hrun hyields
    exact ⟨Γ', hle, hrun, hyields⟩
  · next u w' heq =>
    rw [heq] at hrun hyields
    exact ⟨Γ', hle, hrun.commitUpdate (hle.cells _ _ hcell) hyields c.version⟩

/-! ### Releases -/

/-- A part of a release whose code panics dies of that. -/
theorem typed_part {σ : Signature} {built : Except Defect Instruction}
    (h : Action.Yields S (Instruction.Typed S) Γ σ built) : (Release.part built).Typed S Γ σ := by
  cases built with
  | ok i => exact h
  | error d => exact .done (Outcome.fits_die h σ.ending)

/-- **What has been built for a release is typed.** -/
theorem buildRelease {ρ : Ty} {ε : ErrorType} (release : ReleaseId) {x : Exit Value Value}
    (h : w.Typed S Γ) (hrelease : Γ.releases release.index = some (ρ, ε))
    (hx : x.Fits S Γ ε .unit) :
    ∃ Γ', Γ ≤ Γ' ∧ (w.buildRelease release x).2.Typed S Γ' ∧
      Action.Yields S (Instruction.Typed S) Γ' ⟨ρ, ε, .unit⟩ (w.buildRelease release x).1 := by
  -- a release is built of earlier ones
  induction hindex : release.index using Nat.strongRecOn generalizing release w Γ ρ with
  | _ index ih =>
    subst hindex
    have hnothing : ∃ Γ', Γ ≤ Γ' ∧ w.Typed S Γ' ∧
        Instruction.Typed S Γ' ⟨ρ, ε, .unit⟩ (.value .unit) :=
      ⟨Γ, le_rfl, h, .done .unit⟩
    obtain ⟨r, hr, htyped⟩ := h.releases.there hrelease
    rw [World.buildRelease, hr]
    cases htyped with
    | code hbuild => exact run (hbuild Γ le_rfl x hx) h
    | @nested _ _ _ inner outer hinner houter =>
      simp only
      split
      · next hlt =>
        obtain ⟨Γ', hle, hworld, hfirst⟩ := ih _ hlt inner h hinner hx rfl
        exact ⟨Γ', hle, hworld, Release.typed_insideOut (typed_part hfirst)
          (hle.releases _ _ houter) (hx.mono hle)⟩
      · exact hnothing
    | @both _ _ _ left right hleft hright =>
      simp only
      split
      · next hlt =>
        obtain ⟨Γ₁, h₁, hworld₁, hfirst⟩ := ih _ hlt.1 left h hleft hx rfl
        obtain ⟨Γ₂, h₂, hworld₂, hsecond⟩ :=
          ih _ hlt.2 right hworld₁ (h₁.releases _ _ hright) (hx.mono h₁) rfl
        exact ⟨Γ₂, h₁.trans h₂, hworld₂,
          Release.typed_atOnce ((typed_part hfirst).mono h₂) (typed_part hsecond)⟩
      · exact hnothing
    | @within _ _ ρ' _ environment inner henvironment hinner =>
      simp only
      split
      · next hlt =>
        obtain ⟨Γ', hle, hworld, hbuilt⟩ := ih _ hlt inner h hinner hx rfl
        generalize w.buildRelease inner x = result at hworld hbuilt ⊢
        obtain ⟨built, w'⟩ := result
        cases built with
        | ok i =>
          refine ⟨Γ', hle, hworld, .access fun Γ₁ h₁ outer houter => ?_⟩
          exact (henvironment Γ₁ (hle.trans h₁) outer houter).bind fun Γ₂ h₂ v hv =>
            .done (.provide hv (Instruction.Typed.mono (h₁.trans h₂) hbuilt))
        | error d => exact ⟨Γ', hle, hworld, hbuilt⟩
      · exact hnothing

/-! ### Interruption -/

theorem cancel {onInterrupt : Canceler} (h : w.Typed S Γ) (hc : onInterrupt.Typed S Γ) :
    ∃ Γ', Γ ≤ Γ' ∧ (w.cancel onInterrupt).Typed S Γ' := by
  cases onInterrupt with
  | nothing => exact ⟨Γ, le_rfl, h⟩
  | alarm key =>
    exact ⟨Γ, le_rfl, h.withStore { h.store with
      alarms := fun a ha => h.store.alarms a (Alarms.mem_cancel.mp ha).1 } rfl⟩
  | leave c line ticket =>
    refine ⟨Γ, le_rfl, ?_⟩
    simp only [World.cancel]
    split
    · exact h
    · next ch hch =>
      obtain ⟨τ, hτ, htyped⟩ := h.store.channels.of_get? hch
      refine h.setChannel fun τ' hτ' => ?_
      exact Option.some.inj (hτ.symm.trans hτ') ▸ htyped.leave line ticket
  | action a =>
    obtain ⟨Γ', hle, hworld, -⟩ := run hc h
    exact ⟨Γ', hle, hworld⟩

theorem interruptAt {fiber : FiberId} {s : SuspensionId} (h : w.Typed S Γ)
    (hfiber : ∀ p, w.suspension? s = some p → p.fiber = fiber) (source : FiberId) :
    ∃ Γ', Γ ≤ Γ' ∧ (w.interruptAt fiber s source).Typed S Γ' := by
  unfold World.interruptAt
  split
  · next run onInterrupt heq =>
    obtain ⟨p, hp, hstate⟩ := Option.map_eq_some_iff.mp heq
    obtain ⟨e, -, hplace⟩ := h.places.of_get? hp
    rw [Suspension.Typed, hstate] at hplace
    obtain ⟨hcancel, root, ρ, hroot, hrun⟩ := hplace
    have hover : (w.setSuspension s .over).Typed S Γ := h.setSuspension fun _ _ _ _ => trivial
    obtain ⟨Γ', hle, hcancelled⟩ := hover.cancel hcancel
    rw [hfiber p hp] at hroot
    exact ⟨Γ', hle, hcancelled.schedule
      ⟨root, _, hle.fibers _ _ hroot, hrun.mono hle, Step.typed_interrupt source⟩⟩
  · exact ⟨Γ, le_rfl, h⟩

theorem recordInterruptor (h : w.Typed S Γ) (target source : FiberId) :
    (w.recordInterruptor target source).Typed S Γ := by
  refine h.modifyFiber (fun e r _ hr => ?_) fun r => Or.inl ?_
  · split
    · exact hr
    · exact ⟨hr.exit, hr.observers⟩
  · split <;> rfl

/-- **A request for interruption leaves a typed world.** -/
theorem interrupt (h : w.Typed S Γ) (target source : FiberId) :
    ∃ Γ', Γ ≤ Γ' ∧ (w.interrupt target source).Typed S Γ' := by
  have hrecorded := h.recordInterruptor target source
  unfold World.interrupt
  simp only
  split
  · exact ⟨Γ, le_rfl, hrecorded⟩
  · next s hs =>
    split
    · obtain ⟨r, hr, hplace⟩ := Option.bind_eq_some_iff.mp hs
      refine hrecorded.interruptAt (fun p hp => ?_) _
      obtain ⟨p', hp', hfiber⟩ := hrecorded.owner hr hplace
      exact Option.some.inj (hp'.symm.trans hp) ▸ hfiber
    · exact ⟨Γ, le_rfl, hrecorded⟩

theorem interruptUnfinished (h : w.Typed S Γ) (fibers : List FiberId) (source : FiberId) :
    ∃ Γ', Γ ≤ Γ' ∧ (w.interruptUnfinished fibers source).Typed S Γ' := by
  unfold World.interruptUnfinished
  induction fibers generalizing w Γ with
  | nil => exact ⟨Γ, le_rfl, h⟩
  | cons f fibers ih =>
    rw [List.foldl_cons]
    split
    · exact ih h
    · obtain ⟨Γ₁, h₁, hfirst⟩ := h.interrupt f source
      obtain ⟨Γ₂, h₂, hlast⟩ := ih hfirst
      exact ⟨Γ₂, h₁.trans h₂, hlast⟩

end World.Typed

end Fibers
