import Mathlib.Data.List.Perm.Basic
import Fibers.Proofs.CompletionOrder
import Fibers.Proofs.Integrity
import Fibers.Proofs.Lineage
import Fibers.Proofs.Reporting

/-!
# Children that are kept private

An effect that runs others at once starts them on children of its own, and keeps their handles to
itself.  It waits for each of them among others first, and then once for its exit.  Therefore, if
nobody waits for a child but the effect that has started it, the child confides in the fiber that
evaluates the effect, and the effect ends as the exits of its children say.

## Main definitions

* `Workshop.AwaitedWithin` — whoever waits for a fiber does so in the course of an evaluation.
* `AsksBoth` — how a race waits for its children.

## Main results

* `Workshop.Evaluated.nodup_of_startAll` — the children of an evaluation are different fibers.
* `Settles.NurseryEnds.waits`, `AsksBoth.waits` — how each of them is waited for.
* `Workshop.AwaitedWithin.confides` — **a child that is waited for in an orderly way confides** in the
  fiber that has started it.
-/

namespace Fibers

open Effect

/-! ### Who is started -/

/-- The fiber that is started by something that is done. -/
def Act.forked? : Act → Option FiberId
  | .forks child _ => some child
  | _ => none

theorem forked_startAll (restore : Restore) {children : List FiberId} {effects : List Instruction}
    (hlength : children.length = effects.length) :
    ((startAll restore children effects).map .deals).filterMap Act.forked? = children := by
  induction children generalizing effects with
  | nil => rfl
  | cons c children ih =>
    cases effects with
    | nil => cases hlength
    | cons e effects => exact congrArg (c :: ·) (ih (Nat.succ.inj hlength))

namespace Workshop

variable {budget minted : Nat} {s : Workshop} {record : List (FiberId × Event)}
  {fiber c f parent : FiberId} {base : RunState} {i : Instruction} {during : List Event}
  {o : Outcome} {restore : Restore} {children : List FiberId} {effects : List Instruction}
  {later : List Act} {ε : ErrorType} {daemon : Bool}

/-- What starts a fiber starts it as its events say. -/
theorem starts_of_forked {e : Event} (h : e.act?.bind Act.forked? = some c) :
    ∃ daemon, e.starts? = some (c, daemon) := by
  obtain ⟨a, hact, hforked⟩ := Option.bind_eq_some_iff.mp h
  unfold Act.forked? at hforked
  split at hforked
  · obtain rfl := Option.some.inj hforked
    exact starts_of_act hact
  · cases hforked

/-- A fiber starts different fibers. -/
theorem Run.nodup_forked (h : Run budget (init minted) record s) (f : FiberId) :
    ((acts (eventsOf f record)).filterMap Act.forked?).Nodup := by
  rw [acts, List.filterMap_filterMap, List.Nodup, List.pairwise_filterMap,
    List.pairwise_iff_getElem]
  rintro n k hn hk hlt c hc c' hc' rfl
  obtain ⟨daemon, hstarts⟩ := starts_of_forked hc
  obtain ⟨daemon', hstarts'⟩ := starts_of_forked hc'
  obtain ⟨-, rfl⟩ := h.forked_once (List.getElem?_eq_getElem hn) hstarts
    (List.getElem?_eq_getElem hk) hstarts'
  exact absurd hlt (Nat.lt_irrefl n)

/-- **The children of an evaluation are different fibers.** -/
theorem Evaluated.nodup_of_startAll (hdone : Evaluated s record fiber base i during o)
    (h : Run budget (init minted) record s)
    (hacts : acts during = (startAll restore children effects).map .deals ++ later)
    (hlength : children.length = effects.length) : children.Nodup := by
  obtain @⟨before, after, a, -, -, -, hhistory⟩ := hdone
  have hnodup := h.nodup_forked fiber
  rw [← hhistory.doings, acts_filter, acts_append, acts_append, hacts, List.filterMap_append,
    List.filterMap_append, List.filterMap_append, forked_startAll restore hlength] at hnodup
  exact (hnodup.of_append_right.of_append_left).of_append_left

/-! ### Who waits -/

end Workshop

/-- Among waits for the exits of different fibers one at most is for a given one. -/
theorem filter_isFor_awaitExits {cs : List FiberId} (hnodup : cs.Nodup) (c : FiberId)
    (ε : ErrorType) :
    (cs.map (Registration.awaitExit · ε)).filter (Registration.isFor c) <+: [.awaitExit c ε] := by
  induction cs with
  | nil => exact List.nil_prefix
  | cons d cs ih =>
    obtain ⟨hnot, hnodup⟩ := List.nodup_cons.mp hnodup
    rw [List.map_cons]
    by_cases hself : d = c
    · subst hself
      have hfor : (Registration.awaitExit d ε).isFor d = true := decide_eq_true rfl
      have hrest : (cs.map (Registration.awaitExit · ε)).filter (Registration.isFor d) = [] := by
        refine List.filter_eq_nil_iff.mpr fun registration hmem hfor => ?_
        obtain ⟨d', hd', rfl⟩ := List.mem_map.mp hmem
        exact hnot (of_decide_eq_true hfor ▸ hd')
      have hone : ((Registration.awaitExit d ε) :: cs.map (Registration.awaitExit · ε)).filter
          (Registration.isFor d) = [.awaitExit d ε] := by
        rw [List.filter_cons_of_pos hfor, hrest]
      exact hone ▸ List.prefix_refl _
    · rw [List.filter_cons_of_neg (by simpa [Registration.isFor] using hself)]
      exact ih hnodup

/-- A nursery waits for each of its children among all, and once for its exit. -/
theorem Settles.NurseryEnds.waits {p : Prospect} {ε : ErrorType} {children : List FiberId}
    {o : Outcome} {later : List Act} (h : NurseryEnds p ε children o later)
    (hnodup : children.Nodup) {c : FiberId} (hc : c ∈ children) :
    (waited later).filter (Registration.isFor c) <+: [.firstFailure children, .awaitExit c ε] := by
  have hfor : (Registration.firstFailure children).isFor c = true := List.contains_iff_mem.mpr hc
  cases h with
  | @succeeded _ adopted _ hinitial _ =>
    have hawaits : (adopted.map (.awaits ε) : List Act) =
        (adopted.map (Registration.awaitExit · ε)).map .waits := by
      rw [List.map_map]
      rfl
    rw [waited_waits, List.filter_cons_of_pos hfor, hawaits, waited_map_waits,
      List.prefix_cons_inj]
    exact filter_isFor_awaitExits (hnodup.sublist hinitial.sublist) c ε
  | @failed i culprit _ _ _ hculprit _ _ =>
    rw [waited_waits, List.filter_cons_of_pos hfor, waited_stopSiblings, List.prefix_cons_inj]
    refine filter_isFor_awaitExits ?_ c ε
    -- the one that has failed comes last
    obtain ⟨hi, rfl⟩ := List.getElem?_eq_some_iff.mp hculprit
    exact ((List.perm_append_singleton _ _).trans (List.getElem_cons_eraseIdx_perm hi)).nodup_iff.mpr
      hnodup

/-- A race waits for both of its children in turn. -/
def AsksBoth (ε : ErrorType) (l r : FiberId) (later : List Act) : Prop :=
  ∃ first other, ((first = l ∧ other = r) ∨ first = r ∧ other = l) ∧
    waited later = [.awaitExit first ε, .awaitExit other ε]

/-- Both children are waited for among others, and once each for the exit. -/
theorem AsksBoth.waits {ε : ErrorType} {l r c : FiberId} {later : List Act}
    (h : AsksBoth ε l r later) (hnodup : [l, r].Nodup) (hc : c ∈ [l, r]) :
    (waited (.waits (.firstDone l r) :: later)).filter (Registration.isFor c) <+:
      [.firstDone l r, .awaitExit c ε] := by
  obtain ⟨first, other, hwho, hlater⟩ := h
  have hfor : (Registration.firstDone l r).isFor c = true := by
    rcases List.mem_pair.mp hc with rfl | rfl <;> simp [Registration.isFor]
  rw [waited_waits, List.filter_cons_of_pos hfor, hlater, List.prefix_cons_inj]
  refine @filter_isFor_awaitExits [first, other] ?_ c ε
  rcases hwho with ⟨rfl, rfl⟩ | ⟨rfl, rfl⟩
  · exact hnodup
  · exact (List.Perm.swap _ _ []).nodup_iff.mpr hnodup

/-- What is known in two ways of a race that has not been cut short is known of the same children. -/
theorem Settles.RaceSettles.both {p : Prospect} {restore : Restore} {i j : Instruction}
    {Q Q' : FiberId → FiberId → Outcome → List Act → Prop} {o : Outcome} {as : List Act}
    (h : RaceSettles p restore [i, j] Q o as) (h' : RaceSettles p restore [i, j] Q' o as)
    (hfree : ¬ p.asked) : ∃ l r more,
      as = (startAll restore [l, r] [i, j]).map .deals ++ .waits (.firstDone l r) :: more ∧
        Q l r o more ∧ Q' l r o more := by
  rcases h with ⟨-, hcut, -⟩ | ⟨l, r, later, rfl, ⟨hcut, -⟩ | ⟨more, rfl, hQ⟩⟩
  · exact absurd hcut hfree
  · exact absurd hcut hfree
  rcases h' with ⟨-, hcut, -⟩ | ⟨l', r', later', heq, ⟨hcut, -⟩ | ⟨more', rfl, hQ'⟩⟩
  · exact absurd hcut hfree
  · exact absurd hcut hfree
  obtain ⟨hchildren, hmore⟩ := Workshop.eq_of_startAll heq rfl
  obtain ⟨rfl, hright⟩ := List.cons.inj hchildren
  obtain ⟨rfl, -⟩ := List.cons.inj hright
  obtain ⟨-, rfl⟩ := List.cons.inj hmore
  exact ⟨_, _, _, rfl, hQ, hQ'⟩

namespace Settles

variable {fiber : FiberId} {p : Prospect} {run : RunState} {ε : ErrorType}

/-- A pair waits for both of its children in turn, unless it is cut short. -/
theorem pair_asksBoth {left right : Effect ε} {f : Value → Value → Action Value}
    (hquiet : Quiet p run.handling) :
    Settles fiber p run (.active run (.eval (left.zipParWith right f)))
      (RaceSettles p ⟨run.interruptible⟩ [left, right] fun l r _ later =>
        p.asked ∨ AsksBoth ε l r later) := by
  have hasks : ∀ {first other l r : FiberId} {as : List Act},
      ((first = l ∧ other = r) ∨ first = r ∧ other = l) →
      Handled p.final other (dealt as) ∧ (p.asked ∨ waited as = [.awaitExit other ε] ∧
          ∃ x, p.Exits ε other x ∧ True) → p.asked ∨ AsksBoth ε l r (.awaits ε first :: as) :=
    fun hwho hhandled => hhandled.2.imp_right fun hwaits =>
      ⟨_, _, hwho, by rw [waited_waits, hwaits.1]⟩
  refine raceFold hquiet.calm (fun l other x _ => ?_) fun r other y _ => ?_
  · cases x with
    | done a =>
      refine ⟨_, rfl, (awaitOther (R := fun _ _ => True) hquiet fun y => ?_).mono
        fun _ _ => hasks (Or.inl ⟨rfl, rfl⟩)⟩
      cases y with
      | done b => exact yields_succeed _ fun _ _ => trivial
      | halt h => exact yields_pure trivial
    | halt h =>
      exact ⟨_, rfl, (stopOther (R := fun _ _ => True) hquiet fun y => yields_pure trivial).mono
        fun _ _ => hasks (Or.inl ⟨rfl, rfl⟩)⟩
  · cases y with
    | done b =>
      refine ⟨_, rfl, (awaitOther (R := fun _ _ => True) hquiet fun x => ?_).mono
        fun _ _ => hasks (Or.inr ⟨rfl, rfl⟩)⟩
      cases x with
      | done a => exact yields_succeed _ fun _ _ => trivial
      | halt h => exact yields_pure trivial
    | halt h =>
      refine ⟨_, rfl, (stopOther (R := fun _ _ => True) hquiet fun x => ?_).mono
        fun _ _ => hasks (Or.inr ⟨rfl, rfl⟩)⟩
      cases x with
      | done _ | halt _ => exact yields_pure trivial

/-- So does a race for the first success. -/
theorem race_asksBoth {left right : Effect ε} (hquiet : Quiet p run.handling) :
    Settles fiber p run (.active run (.eval (left.race right)))
      (RaceSettles p ⟨run.interruptible⟩ [left, right] fun l r _ later =>
        p.asked ∨ AsksBoth ε l r later) := by
  refine raceFold hquiet.calm (fun l other x _ => ⟨_, rfl, ?_⟩) fun r other x _ => ⟨_, rfl, ?_⟩
  · refine (raceSettle hquiet).mono fun o as hhandled => hhandled.2.imp_right fun hwaits => ?_
    exact ⟨_, _, Or.inl ⟨rfl, rfl⟩, by rw [waited_waits, hwaits.1]⟩
  · refine (raceSettle hquiet).mono fun o as hhandled => hhandled.2.imp_right fun hwaits => ?_
    exact ⟨_, _, Or.inr ⟨rfl, rfl⟩, by rw [waited_waits, hwaits.1]⟩

end Settles

namespace Workshop

variable {budget minted : Nat} {s : Workshop} {record : List (FiberId × Event)}
  {fiber c f parent : FiberId} {base : RunState} {i : Instruction} {during : List Event}
  {o : Outcome} {restore : Restore} {children : List FiberId} {effects : List Instruction}
  {later : List Act} {ε : ErrorType} {first : Registration}

/-- Whoever waits for a fiber does so in the course of an evaluation: no other fiber waits for it,
nor does this one before or after. -/
structure AwaitedWithin (record : List (FiberId × Event)) (fiber : FiberId) (during : List Event)
    (c : FiberId) : Prop where
  nobody : ∀ f, f ≠ fiber → waitsFor c (eventsOf f record) = []
  within : waitsFor c (eventsOf fiber record) = waitsFor c during

/-- **A private child confides** in the fiber that has started it, if that waits for it among others
first and then once for its exit. -/
theorem AwaitedWithin.confides (hprivate : AwaitedWithin record fiber during c)
    (h : Run budget (init minted) record s) (hdone : Evaluated s record fiber base i during o)
    (hacts : acts during = (startAll restore children effects).map .deals ++ later)
    (hlength : children.length = effects.length) (hc : c ∈ children)
    (hwaits : (waited later).filter (Registration.isFor c) <+: [first, .awaitExit c ε])
    (hamong : ∀ type, first ≠ .awaitExit c type) : Confides s record fiber c first ε where
  own := by
    rwa [hprivate.within, waitsFor, hacts, waited_append, waited_map_deals, List.nil_append]
  nobody := hprivate.nobody
  unreported := by
    obtain @⟨before, after, a, -, -, -, hhistory⟩ := hdone
    obtain ⟨daemon, hforked⟩ := hhistory.forked_of_startAll hacts hlength hc
    exact h.not_reported_of_forked hforked
  among := hamong

end Workshop

end Fibers
