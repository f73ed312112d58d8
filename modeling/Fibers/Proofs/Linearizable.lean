import Fibers.Proofs.Contention

/-!
# Updates are linearizable

Many may update a cell at the same time, read it and write to it.  Whatever the order in which their
snapshots, the operations of their functions and their commits happen, it is as if every update had
happened at once, at its commit: its function has been called on the very value that the commit
replaces, so no write is lost and none is based on what was there earlier.

What carries the proof is what has happened since the last call of a function.  The cell is the
snapshot after the writes since then; so it has the version of the snapshot only if there were none.

## Main definitions

* `LastCall` — how far the last call of a function has come, and what has happened since.
* `CellEvent.Kept` — what is promised about something that happens.
* `Stage.Reached`, `Contention.Follows` — what an update has done, as far as it has come.
* `Updater.Carries` — an update is what an effect asks for.
* `Contention.Linearizable` — the promises to those who use a cell.

## Main results

* `Contention.Follows.step` — whatever happens next keeps the promises.
* `Contention.Run.linearizable` — **updates are linearizable**.
-/

namespace Fibers

/-! ### What an update has done so far -/

/-- The update has returned or its function has panicked. -/
def CellEvent.Over (past : List CellEvent) (i : Nat) : Prop :=
  ∃ e ∈ past, e.who? = some i ∧ e.isLast = true

/-- The functions of the updates. -/
def Contention.functions (s : Contention) : List (Nat → Value → Action (Update Value)) :=
  s.updaters.map Updater.f

/-- The last call of the function of an update, after as many calls before, was on the given value;
`since` is what has happened afterwards, and `rest` what is left of the call. -/
structure LastCall (fs : List (Nat → Value → Action (Update Value))) (past since : List CellEvent)
    (i calls : Nat) (seen : Value) (rest : Action (Update Value)) : Prop where
  /-- The update is not over. -/
  underWay : ¬CellEvent.Over past i
  /-- The function was called. -/
  called : ∃ before, past = before ++ .called i calls seen :: since
  /-- The update has done nothing else. -/
  idle : ∀ e ∈ since, e.who? ≠ some i
  /-- The call has come this far. -/
  leads : ∃ f, fs[i]? = some f ∧ (f calls seen).Leads rest

/-- What is promised about something that happens to a cell which was `c₀`, after what has happened
before. -/
def CellEvent.Kept (c₀ : Cell Value) (fs : List (Nat → Value → Action (Update Value)))
    (past : List CellEvent) : CellEvent → Prop
  | .read v => v = (c₀.after past).value
  | .wrote _ => True
  | .called i _ seen => i < fs.length ∧ ¬Over past i ∧ seen = (c₀.after past).value
  | .committed i seen result next =>
    ∃ calls since, LastCall fs past since i calls seen (.done ⟨result, some next⟩) ∧
      written since = [] ∧ seen = (c₀.after past).value
  | .declined i result =>
    ∃ calls since seen, LastCall fs past since i calls seen (.done ⟨result, none⟩)
  | .panicked i d => ∃ calls since seen, LastCall fs past since i calls seen (.panic d)
  | .overtaken i =>
    ∃ calls since seen u, LastCall fs past since i calls seen (.done u) ∧ written since ≠ []

/-- An update has come to a stage. -/
def Stage.Reached (c₀ : Cell Value) (fs : List (Nat → Value → Action (Update Value)))
    (past : List CellEvent) (i : Nat) : Stage → Prop
  | .ready _ => ¬CellEvent.Over past i
  | .running calls seen rest =>
    ∃ since, LastCall fs past since i calls seen.value rest ∧ c₀.after past = seen.after since
  | .returned v => (∃ seen next, .committed i seen v next ∈ past) ∨ .declined i v ∈ past
  | .panicked d => .panicked i d ∈ past

/-- A cell that was `c₀` and the updates have come to where they are by what has happened. -/
structure Contention.Follows (cell : CellId) (c₀ : Cell Value) (past : List CellEvent)
    (s : Contention) : Prop where
  /-- The cell is what its writes have made of it. -/
  cell : s.world.store.cell? cell = some (c₀.after past)
  /-- The promises have been kept. -/
  kept : ∀ before e after, past = before ++ e :: after → e.Kept c₀ s.functions before
  /-- All updates have come to their stages. -/
  stages : ∀ (i : Nat) (u : Updater), s.updaters[i]? = some u → u.stage.Reached c₀ s.functions past i

section Steps

variable {fs fs' : List (Nat → Value → Action (Update Value))} {past since events : List CellEvent}
variable {c₀ : Cell Value} {i calls : Nat} {seen : Value} {rest : Action (Update Value)}
variable {e : CellEvent}

namespace CellEvent

theorem over_append : Over (past ++ events) i ↔ Over past i ∨ Over events i := by
  simp [Over, or_and_right, exists_or]

/-- Only what an update does itself brings it to its end. -/
theorem over_append_iff (hidle : ∀ e ∈ events, e.who? ≠ some i) :
    Over (past ++ events) i ↔ Over past i := by
  rw [over_append, or_iff_left]
  rintro ⟨e, he, hwho, -⟩
  exact hidle e he hwho

end CellEvent

namespace LastCall

/-- What others do changes nothing. -/
theorem append (h : LastCall fs past since i calls seen rest)
    (hidle : ∀ e ∈ events, e.who? ≠ some i) :
    LastCall fs (past ++ events) (since ++ events) i calls seen rest where
  underWay := fun hover => h.underWay ((CellEvent.over_append_iff hidle).mp hover)
  called := by
    obtain ⟨before, rfl⟩ := h.called
    exact ⟨before, by simp⟩
  idle := fun e he => (List.mem_append.mp he).elim (h.idle e) (hidle e)
  leads := h.leads

/-- The call goes on. -/
theorem goesOn {rest' : Action (Update Value)} (h : LastCall fs past since i calls seen rest)
    (hrest : ∀ a : Action (Update Value), a.Leads rest → a.Leads rest') :
    LastCall fs past since i calls seen rest' where
  underWay := h.underWay
  called := h.called
  idle := h.idle
  leads := by
    obtain ⟨f, hf, hleads⟩ := h.leads
    exact ⟨f, hf, hrest _ hleads⟩

/-- The functions that come later change nothing. -/
theorem mono (h : LastCall fs past since i calls seen rest) (hfs : fs <+: fs') :
    LastCall fs' past since i calls seen rest where
  underWay := h.underWay
  called := h.called
  idle := h.idle
  leads := by
    obtain ⟨f, hf, hleads⟩ := h.leads
    obtain ⟨hlt, hget⟩ := List.getElem?_eq_some_iff.mp hf
    exact ⟨f, (List.prefix_iff_getElem?.mp hfs i hlt).trans (congrArg some hget), hleads⟩

end LastCall

theorem CellEvent.Kept.mono (h : e.Kept c₀ fs past) (hfs : fs <+: fs') : e.Kept c₀ fs' past := by
  cases e with
  | read v => exact h
  | wrote v => trivial
  | called i calls seen => exact ⟨Nat.lt_of_lt_of_le h.1 hfs.length_le, h.2⟩
  | committed i seen result next =>
    obtain ⟨calls, since, hlast, h⟩ := h
    exact ⟨calls, since, hlast.mono hfs, h⟩
  | declined i result =>
    obtain ⟨calls, since, seen, hlast⟩ := h
    exact ⟨calls, since, seen, hlast.mono hfs⟩
  | panicked i d =>
    obtain ⟨calls, since, seen, hlast⟩ := h
    exact ⟨calls, since, seen, hlast.mono hfs⟩
  | overtaken i =>
    obtain ⟨calls, since, seen, u, hlast, h⟩ := h
    exact ⟨calls, since, seen, u, hlast.mono hfs, h⟩

/-- Whoever does something has been asked for and is not through. -/
theorem CellEvent.Kept.underWay (h : e.Kept c₀ fs past) (hwho : e.who? = some i) :
    i < fs.length ∧ ¬CellEvent.Over past i := by
  have hlast {past since : List CellEvent} {i calls : Nat} {seen : Value}
      {rest : Action (Update Value)} (h : LastCall fs past since i calls seen rest) :
      i < fs.length ∧ ¬CellEvent.Over past i := by
    obtain ⟨f, hf, -⟩ := h.leads
    exact ⟨(List.getElem?_eq_some_iff.mp hf).1, h.underWay⟩
  cases e with
  | read v => cases hwho
  | wrote v => cases hwho
  | called i' calls seen =>
    cases hwho
    exact ⟨h.1, h.2.1⟩
  | committed i' seen result next =>
    cases hwho
    obtain ⟨calls, since, h, -⟩ := h
    exact hlast h
  | declined i' result =>
    cases hwho
    obtain ⟨calls, since, seen, h⟩ := h
    exact hlast h
  | panicked i' d =>
    cases hwho
    obtain ⟨calls, since, seen, h⟩ := h
    exact hlast h
  | overtaken i' =>
    cases hwho
    obtain ⟨calls, since, seen, u, h, -⟩ := h
    exact hlast h

namespace Stage.Reached

variable {stage : Stage}

/-- What others do changes nothing. -/
theorem append (h : stage.Reached c₀ fs past i) (hidle : ∀ e ∈ events, e.who? ≠ some i) :
    stage.Reached c₀ fs (past ++ events) i := by
  cases stage with
  | ready calls => exact fun hover => h ((CellEvent.over_append_iff hidle).mp hover)
  | running calls seen rest =>
    obtain ⟨since, hlast, hcell⟩ := h
    refine ⟨since ++ events, hlast.append hidle, ?_⟩
    rw [Cell.after_append, Cell.after_append, hcell]
  | returned v =>
    refine h.imp ?_ (List.mem_append_left _)
    rintro ⟨seen, next, hmem⟩
    exact ⟨seen, next, List.mem_append_left _ hmem⟩
  | panicked d => exact List.mem_append_left _ h

theorem mono (h : stage.Reached c₀ fs past i) (hfs : fs <+: fs') : stage.Reached c₀ fs' past i := by
  cases stage with
  | ready calls => exact h
  | running calls seen rest =>
    obtain ⟨since, hlast, hcell⟩ := h
    exact ⟨since, hlast.mono hfs, hcell⟩
  | returned v => exact h
  | panicked d => exact h

end Stage.Reached

end Steps

namespace Contention

variable {cell : CellId} {s s' : Contention} {past events record : List CellEvent} {c₀ : Cell Value}

@[simp] theorem functions_mk (w : World) (us : List Updater) :
    functions ⟨w, us⟩ = us.map Updater.f := rfl

/-- An update that gets on stays the same update. -/
theorem map_set_stage {us : List Updater} {i : Nat} {f : Nat → Value → Action (Update Value)}
    {stage : Stage} (hu : us[i]? = some ⟨f, stage⟩) (stage' : Stage) :
    (us.set i ⟨f, stage'⟩).map Updater.f = us.map Updater.f := by
  obtain ⟨hlt, hget⟩ := List.getElem?_eq_some_iff.mp hu
  rw [List.map_set]
  refine List.ext_getElem? fun j => ?_
  rw [List.getElem?_set]
  split
  · next heq =>
    subst heq
    rw [if_pos (by simpa using hlt), List.getElem?_map, hu]
    rfl
  · rfl

/-- Updates come, and none becomes another. -/
theorem Move.functions_prefix (h : Move cell s events s') : s.functions <+: s'.functions := by
  cases h with
  | enter f => exact ⟨[f], by simp⟩
  | elsewhere _ | read _ | write _ => exact List.prefix_rfl
  | snapshot hu _ | operate hu | panic hu | commit hu _ =>
    refine ⟨[], ?_⟩
    rw [List.append_nil, functions_mk, functions_mk, map_set_stage hu]

namespace Follows

variable {w w' : World} {us : List Updater} {i calls : Nat} {c : Cell Value}
variable {f : Nat → Value → Action (Update Value)} {rest : Action (Update Value)}

/-- The call that is under way. -/
theorem running (hs : Follows cell c₀ past ⟨w, us⟩)
    (hu : us[i]? = some ⟨f, .running calls c rest⟩) :
    ∃ since, LastCall (us.map Updater.f) past since i calls c.value rest ∧
      c₀.after past = c.after since :=
  hs.stages i _ hu

theorem ready (hs : Follows cell c₀ past ⟨w, us⟩) (hu : us[i]? = some ⟨f, .ready calls⟩) :
    ¬CellEvent.Over past i :=
  hs.stages i _ hu

/-- Nobody does anything before having been asked for. -/
theorem not_over_length (hs : Follows cell c₀ past ⟨w, us⟩) : ¬CellEvent.Over past us.length := by
  rintro ⟨e, he, hwho, -⟩
  obtain ⟨before, after, hsplit⟩ := List.append_of_mem he
  have hlt := ((hs.kept before e after hsplit).underWay hwho).1
  rw [functions_mk, List.length_map] at hlt
  exact Nat.lt_irrefl _ hlt

/-- One update gets on, and all others stay where they are. -/
theorem stages_set {stage' : Stage} (hs : Follows cell c₀ past ⟨w, us⟩)
    (hevents : ∀ e ∈ events, ∀ j, e.who? = some j → j = i)
    (hstage : stage'.Reached c₀ (us.map Updater.f) (past ++ events) i) (j : Nat) (u : Updater)
    (hu : (us.set i ⟨f, stage'⟩)[j]? = some u) :
    u.stage.Reached c₀ (us.map Updater.f) (past ++ events) j := by
  rw [List.getElem?_set] at hu
  split at hu
  · next heq =>
    subst heq
    split at hu
    · cases hu
      exact hstage
    · cases hu
  · next hne => exact (hs.stages j u hu).append fun e he hwho => hne (hevents e he j hwho).symm

/-- What comes of a call that is through. -/
theorem committed {u : Update Value} {attempt : Attempt} (hs : Follows cell c₀ past ⟨w, us⟩)
    (hu : us[i]? = some ⟨f, .running calls c (.done u)⟩)
    (hcommit : w.commitUpdate cell c.version u = (attempt, w')) :
    ∃ e, attempt.cellEvents i c.value u = [e] ∧ e.who? = some i ∧
      e.Kept c₀ (us.map Updater.f) past ∧
      (attempt.stage calls).Reached c₀ (us.map Updater.f) (past ++ [e]) i := by
  obtain ⟨since, hlast, hcell⟩ := hs.running hu
  obtain ⟨result, next?⟩ := u
  rcases World.commitUpdate_cases hs.cell hcommit with
    ⟨hnext, rfl, -⟩ | ⟨next, hnext, hversion, rfl, -⟩ | ⟨-, hversion, rfl, -⟩
  -- it leaves the cell alone
  · obtain rfl : next? = none := hnext
    exact ⟨.declined i result, rfl, rfl, ⟨calls, since, c.value, hlast⟩, .inr (by simp)⟩
  -- nobody was faster
  · obtain rfl : next? = some next := hnext
    have hnothing : CellEvent.written since = [] :=
      Cell.version_after_eq_iff.mp (by rw [← hcell, hversion])
    have hvalue : c.value = (c₀.after past).value := by
      rw [hcell, Cell.after_of_written hnothing]
    exact ⟨.committed i c.value result next, rfl, rfl, ⟨calls, since, hlast, hnothing, hvalue⟩,
      .inl ⟨c.value, next, by simp⟩⟩
  -- somebody was
  · refine ⟨.overtaken i, rfl, rfl, ⟨calls, since, c.value, _, hlast, fun hnothing => ?_⟩, ?_⟩
    · exact hversion (by rw [hcell, Cell.after_of_written hnothing])
    · rintro hover
      rcases CellEvent.over_append.mp hover with hover | ⟨e, he, -, hover⟩
      · exact hlast.underWay hover
      · obtain rfl := List.mem_singleton.mp he
        cases hover

/-- What nobody of the updates does lets them stay where they are. -/
theorem stages_others (hs : Follows cell c₀ past ⟨w, us⟩) (hothers : ∀ e ∈ events, e.who? = none)
    (j : Nat) (u : Updater) (hu : us[j]? = some u) :
    u.stage.Reached c₀ (us.map Updater.f) (past ++ events) j :=
  (hs.stages j u hu).append fun e he hwho => by
    rw [hothers e he] at hwho
    cases hwho

/-- **What happens next keeps all promises.** -/
theorem step (hs : Follows cell c₀ past s) (h : Move cell s events s') :
    (events = [] ∨ ∃ e, events = [e] ∧ e.Kept c₀ s.functions past) ∧
      ∀ (j : Nat) (u : Updater), s'.updaters[j]? = some u →
        u.stage.Reached c₀ s'.functions (past ++ events) j := by
  cases h with
  | @enter w us f =>
    refine ⟨.inl rfl, fun j u hu => ?_⟩
    have hfs : us.map Updater.f <+: functions ⟨w, us ++ [⟨f, .ready 0⟩]⟩ := ⟨[f], by simp⟩
    rw [List.append_nil]
    rw [List.getElem?_append] at hu
    split at hu
    · exact (hs.stages j u hu).mono hfs
    · obtain ⟨hlt, rfl⟩ := List.getElem?_eq_some_iff.mp hu
      have hj : j = us.length := by
        rw [List.length_singleton] at hlt
        omega
      subst hj
      simpa [Stage.Reached] using hs.not_over_length
  | elsewhere _ => exact ⟨.inl rfl, hs.stages_others (by simp)⟩
  | @read w w' us v hread =>
    refine ⟨.inr ⟨_, rfl, ?_⟩, hs.stages_others (by simp [CellEvent.who?])⟩
    have hread : (Except.ok (((w.store.cell? cell).map Cell.value).getD .unit), w) = (.ok v, w') :=
      hread
    rw [hs.cell] at hread
    exact (Except.ok.inj (Prod.mk.inj hread).1).symm
  | @write w us v =>
    exact ⟨.inr ⟨_, rfl, trivial⟩, hs.stages_others (by simp [CellEvent.who?])⟩
  | @snapshot w us i calls c f hu hc =>
    obtain rfl : c₀.after past = c := Option.some.inj (hs.cell.symm.trans hc)
    have hlast : LastCall (us.map Updater.f) (past ++ [.called i calls (c₀.after past).value]) [] i
        calls (c₀.after past).value (f calls (c₀.after past).value) :=
      { underWay := fun hover => by
          rcases CellEvent.over_append.mp hover with hover | ⟨e, he, -, hover⟩
          · exact hs.ready hu hover
          · obtain rfl := List.mem_singleton.mp he
            cases hover
        called := ⟨past, rfl⟩
        idle := by simp
        leads := ⟨f, by rw [List.getElem?_map, hu]; rfl, .refl _⟩ }
    rw [functions_mk, functions_mk, map_set_stage hu]
    refine ⟨.inr ⟨_, rfl, ?_, hs.ready hu, rfl⟩, hs.stages_set ?_ ⟨[], hlast, ?_⟩⟩
    · simpa using (List.getElem?_eq_some_iff.mp hu).1
    · simp [CellEvent.who?]
    · rw [Cell.after_append]
      rfl
  | @operate w us i calls c f op next hu =>
    obtain ⟨since, hlast, hcell⟩ := hs.running hu
    have hnobody : ∀ e ∈ op.cellEvents cell, e.who? = none := by
      rcases op.cellEvents_cases cell with hevents | ⟨v, hevents⟩ <;> simp [hevents, CellEvent.who?]
    rw [functions_mk, functions_mk, map_set_stage hu]
    refine ⟨?_, hs.stages_set (fun e he j hj => ?_) ⟨since ++ op.cellEvents cell, ?_, ?_⟩⟩
    · exact (op.cellEvents_cases cell).imp_right fun ⟨v, hevents⟩ => ⟨_, hevents, trivial⟩
    · rw [hnobody e he] at hj
      cases hj
    · exact (hlast.append fun e he => by simp [hnobody e he]).goesOn fun a ha => ha.perform _
    · rw [Cell.after_append, Cell.after_append, hcell]
  | @panic w us i calls c f d hu =>
    obtain ⟨since, hlast, -⟩ := hs.running hu
    rw [functions_mk, functions_mk, map_set_stage hu]
    refine ⟨.inr ⟨_, rfl, calls, since, c.value, hlast⟩, hs.stages_set (by simp [CellEvent.who?]) ?_⟩
    simp [Stage.Reached]
  | @commit w w' us i calls c f u attempt hu hcommit =>
    obtain ⟨e, hevents, hwho, hkept, hreached⟩ := hs.committed hu hcommit
    rw [hevents, functions_mk, functions_mk, map_set_stage hu]
    refine ⟨.inr ⟨e, rfl, hkept⟩, hs.stages_set ?_ hreached⟩
    rintro e he j hj
    obtain rfl := List.mem_singleton.mp he
    exact Option.some.inj (hj.symm.trans hwho)

/-- The next thing happens. -/
theorem move (hs : Follows cell c₀ past s) (h : Move cell s events s') :
    Follows cell c₀ (past ++ events) s' := by
  obtain ⟨hkept, hstages⟩ := hs.step h
  refine ⟨by rw [Cell.after_append]; exact h.cell? hs.cell, ?_, hstages⟩
  rcases hkept with rfl | ⟨e, rfl, he⟩
  · rw [List.append_nil]
    exact fun before e after hsplit => (hs.kept before e after hsplit).mono h.functions_prefix
  · intro before e' after hsplit
    rcases List.eq_nil_or_concat after with rfl | ⟨after', last, rfl⟩
    -- the event is the one that has just happened
    · obtain ⟨rfl, hlast⟩ := List.append_inj' hsplit rfl
      obtain rfl := List.singleton_inj.mp hlast
      exact he.mono h.functions_prefix
    -- or one of those before
    · have hsplit : past ++ [e] = (before ++ e' :: after') ++ [last] := by simpa using hsplit
      obtain ⟨rfl, -⟩ := List.append_inj' hsplit rfl
      exact (hs.kept before e' after' rfl).mono h.functions_prefix

theorem run (hs : Follows cell c₀ past s) (h : Run cell s record s') :
    Follows cell c₀ (past ++ record) s' := by
  induction h generalizing past with
  | rest =>
    rw [List.append_nil]
    exact hs
  | move hmove _ ih =>
    rw [← List.append_assoc]
    exact ih (hs.move hmove)

end Follows

end Contention

/-! ### What the effects make of a value -/

/-- An update is what an effect asks for. -/
def Updater.Carries (u : Updater) (cell : CellId) (e : Instruction) : Prop :=
  ∀ calls, e = .update cell (u.f calls)

namespace Updater.Carries

variable {ε : ErrorType} {cell : CellId} {updater : Updater} {calls : Nat} {seen : Value}
variable {u : Update Value}

theorem modify {f : Value → Action (Value × Value)}
    (h : updater.Carries cell (cell.modify f : Effect ε))
    (hu : (updater.f calls seen).Leads (.done u)) :
    ∃ result next, (f seen).Leads (.done (result, next)) ∧ u = ⟨result, some next⟩ := by
  rw [← congrFun (Instruction.update.inj (h calls)).2 seen] at hu
  obtain ⟨⟨result, next⟩, hf, hu⟩ := hu.of_bind
  exact ⟨result, next, hf, hu.done_inj.symm⟩

theorem modifySome {default : Value} {f : Value → Action (Option (Value × Value))}
    (h : updater.Carries cell (cell.modifySome default f : Effect ε))
    (hu : (updater.f calls seen).Leads (.done u)) :
    (∃ result next, (f seen).Leads (.done (some (result, next))) ∧ u = ⟨result, some next⟩) ∨
      (f seen).Leads (.done none) ∧ u = ⟨default, none⟩ := by
  rw [← congrFun (Instruction.update.inj (h calls)).2 seen] at hu
  obtain ⟨made, hf, hu⟩ := hu.of_bind
  cases made with
  | some made => exact .inl ⟨made.1, made.2, hf, hu.done_inj.symm⟩
  | none => exact .inr ⟨hf, hu.done_inj.symm⟩

end Updater.Carries

/-! ### The promises -/

namespace Contention

/-- What the effects that update a cell have done to it, and with which results, when what has
happened is as recorded. -/
structure Tells (cell : CellId) (record : List CellEvent) (i : Nat) (updater : Updater) : Prop where
  /-- `modify` writes what its function has made of the value, and returns the result. -/
  modify : ∀ {ε : ErrorType} {f : Value → Action (Value × Value)} {seen result next : Value},
    updater.Carries cell (cell.modify f : Effect ε) →
      .committed i seen result next ∈ record → (f seen).Leads (.done (result, next))
  /-- It does not return without writing. -/
  modify_writes : ∀ {ε : ErrorType} {f : Value → Action (Value × Value)} {result : Value},
    updater.Carries cell (cell.modify f : Effect ε) → .declined i result ∉ record
  /-- `modifySome` writes what its function has made of the value, and returns the result. -/
  modifySome : ∀ {ε : ErrorType} {default : Value} {f : Value → Action (Option (Value × Value))}
    {seen result next : Value}, updater.Carries cell (cell.modifySome default f : Effect ε) →
      .committed i seen result next ∈ record → (f seen).Leads (.done (some (result, next)))
  /-- It returns the default if its function has made nothing of the value. -/
  modifySome_default : ∀ {ε : ErrorType} {default : Value}
    {f : Value → Action (Option (Value × Value))} {result : Value},
    updater.Carries cell (cell.modifySome default f : Effect ε) →
      .declined i result ∈ record → result = default ∧ ∃ seen, (f seen).Leads (.done none)
  /-- `update` writes what its function has made of the value, and returns nothing. -/
  update : ∀ {ε : ErrorType} {f : Value → Action Value} {seen result next : Value},
    updater.Carries cell (cell.update f : Effect ε) →
      .committed i seen result next ∈ record → (f seen).Leads (.done next) ∧ result = .unit
  /-- `updateAndGet` returns what it has written. -/
  updateAndGet : ∀ {ε : ErrorType} {f : Value → Action Value} {seen result next : Value},
    updater.Carries cell (cell.updateAndGet f : Effect ε) →
      .committed i seen result next ∈ record → (f seen).Leads (.done next) ∧ result = next
  /-- `getAndUpdate` returns what it has replaced. -/
  getAndUpdate : ∀ {ε : ErrorType} {f : Value → Action Value} {seen result next : Value},
    updater.Carries cell (cell.getAndUpdate f : Effect ε) →
      .committed i seen result next ∈ record → (f seen).Leads (.done next) ∧ result = seen
  /-- `getAndSet` writes its value, and returns what it has replaced. -/
  getAndSet : ∀ {ε : ErrorType} {v seen result next : Value},
    updater.Carries cell (cell.getAndSet v : Effect ε) →
      .committed i seen result next ∈ record → next = v ∧ result = seen
  /-- `updateSome` writes what its function has made of the value, and returns nothing. -/
  updateSome : ∀ {ε : ErrorType} {f : Value → Action (Option Value)} {seen result next : Value},
    updater.Carries cell (cell.updateSome f : Effect ε) →
      .committed i seen result next ∈ record → (f seen).Leads (.done (some next)) ∧ result = .unit

/-- **The promises to those who use a cell** that was `c₀` before all that is recorded. -/
structure Linearizable (cell : CellId) (c₀ : Cell Value) (record : List CellEvent)
    (s : Contention) : Prop where
  /-- The cell holds the last value written, and its version counts the writes. -/
  holds : ∃ c, s.world.store.cell? cell = some c ∧
    c.value = (CellEvent.written record).getLastD c₀.value ∧
    c.version = c₀.version + (CellEvent.written record).length
  /-- An update that commits has been called last on the very value that it replaces, which nobody has
  written since; what it writes and returns is what that call has made. -/
  commits : ∀ before i seen result next after,
    record = before ++ .committed i seen result next :: after →
      seen = (CellEvent.written before).getLastD c₀.value ∧
      ∃ calls since, LastCall s.functions before since i calls seen (.done ⟨result, some next⟩) ∧
        CellEvent.written since = []
  /-- An update that declines returns what its last call has made. -/
  declines : ∀ before i result after, record = before ++ .declined i result :: after →
    ∃ calls since seen, LastCall s.functions before since i calls seen (.done ⟨result, none⟩)
  /-- An update panics if its last call does. -/
  panics : ∀ before i d after, record = before ++ .panicked i d :: after →
    ∃ calls since seen, LastCall s.functions before since i calls seen (.panic d)
  /-- An update that is overtaken has been: somebody has written since its last call. -/
  overtaken : ∀ before i after, record = before ++ .overtaken i :: after →
    ∃ calls since seen u, LastCall s.functions before since i calls seen (.done u) ∧
      CellEvent.written since ≠ []
  /-- A function is called on what the cell holds. -/
  calls : ∀ before i n seen after, record = before ++ .called i n seen :: after →
    seen = (CellEvent.written before).getLastD c₀.value
  /-- Whoever reads the cell finds the last value written before. -/
  reads : ∀ before v after, record = before ++ .read v :: after →
    v = (CellEvent.written before).getLastD c₀.value
  /-- An update that is over does nothing else. -/
  once : ∀ before e after i, record = before ++ e :: after → e.who? = some i →
    ¬CellEvent.Over before i
  /-- An update that declines or panics has committed nothing. -/
  nothing : ∀ i, ((∃ v, .declined i v ∈ record) ∨ ∃ d, .panicked i d ∈ record) →
    ∀ seen result next, .committed i seen result next ∉ record
  /-- What an update has returned is what it has committed or declined with. -/
  returned : ∀ (i : Nat) f v, s.updaters[i]? = some ⟨f, .returned v⟩ →
    (∃ seen next, .committed i seen v next ∈ record) ∨ .declined i v ∈ record
  /-- An update that has committed returns the result. -/
  returns : ∀ i seen result next, .committed i seen result next ∈ record →
    ∃ f, s.updaters[i]? = some ⟨f, .returned result⟩
  /-- The effects keep their promises. -/
  effects : ∀ (i : Nat) updater, s.updaters[i]? = some updater → Tells cell record i updater

namespace Follows

variable {cell : CellId} {s : Contention} {past : List CellEvent} {c₀ : Cell Value} {i : Nat}
variable {updater : Updater} {seen result next : Value}

/-- A function that has been called last is that of its update. -/
theorem leads_of_lastCall {before since : List CellEvent} {calls : Nat}
    {rest : Action (Update Value)} (hu : s.updaters[i]? = some updater)
    (h : LastCall s.functions before since i calls seen rest) :
    (updater.f calls seen).Leads rest := by
  obtain ⟨f, hf, hleads⟩ := h.leads
  rw [functions, List.getElem?_map, hu] at hf
  exact Option.some.inj hf ▸ hleads

theorem leads_of_committed (hs : Follows cell c₀ past s) (hu : s.updaters[i]? = some updater)
    (h : .committed i seen result next ∈ past) :
    ∃ calls, (updater.f calls seen).Leads (.done ⟨result, some next⟩) := by
  obtain ⟨before, after, hsplit⟩ := List.append_of_mem h
  obtain ⟨calls, since, hlast, -⟩ := hs.kept before _ after hsplit
  exact ⟨calls, leads_of_lastCall hu hlast⟩

theorem leads_of_declined (hs : Follows cell c₀ past s) (hu : s.updaters[i]? = some updater)
    (h : .declined i result ∈ past) :
    ∃ calls seen, (updater.f calls seen).Leads (.done ⟨result, none⟩) := by
  obtain ⟨before, after, hsplit⟩ := List.append_of_mem h
  obtain ⟨calls, since, seen, hlast⟩ := hs.kept before _ after hsplit
  exact ⟨calls, seen, leads_of_lastCall hu hlast⟩

/-- `modify` writes what its function has made. -/
theorem modified {ε : ErrorType} {f : Value → Action (Value × Value)}
    (hs : Follows cell c₀ past s) (hu : s.updaters[i]? = some updater)
    (hcarries : updater.Carries cell (cell.modify f : Effect ε))
    (h : .committed i seen result next ∈ past) : (f seen).Leads (.done (result, next)) := by
  obtain ⟨calls, hleads⟩ := hs.leads_of_committed hu h
  obtain ⟨_, _, hf, heq⟩ := hcarries.modify hleads
  cases heq
  exact hf

/-- `modifySome` writes what its function has made. -/
theorem modifiedSome {ε : ErrorType} {default : Value} {f : Value → Action (Option (Value × Value))}
    (hs : Follows cell c₀ past s) (hu : s.updaters[i]? = some updater)
    (hcarries : updater.Carries cell (cell.modifySome default f : Effect ε))
    (h : .committed i seen result next ∈ past) : (f seen).Leads (.done (some (result, next))) := by
  obtain ⟨calls, hleads⟩ := hs.leads_of_committed hu h
  rcases hcarries.modifySome hleads with ⟨_, _, hf, heq⟩ | ⟨-, heq⟩
  · cases heq
    exact hf
  · cases heq

theorem tells (hs : Follows cell c₀ past s) (hu : s.updaters[i]? = some updater) :
    Tells cell past i updater where
  modify := fun hcarries h => hs.modified hu hcarries h
  modify_writes := fun hcarries h => by
    obtain ⟨calls, seen, hleads⟩ := hs.leads_of_declined hu h
    obtain ⟨_, _, _, heq⟩ := hcarries.modify hleads
    cases heq
  modifySome := fun hcarries h => hs.modifiedSome hu hcarries h
  modifySome_default := fun hcarries h => by
    obtain ⟨calls, seen, hleads⟩ := hs.leads_of_declined hu h
    rcases hcarries.modifySome hleads with ⟨_, _, _, heq⟩ | ⟨hf, heq⟩
    · cases heq
    · cases heq
      exact ⟨rfl, seen, hf⟩
  update := fun hcarries h => by
    obtain ⟨made, hf, heq⟩ := (hs.modified hu hcarries h).of_bind
    cases heq.done_inj
    exact ⟨hf, rfl⟩
  updateAndGet := fun hcarries h => by
    obtain ⟨made, hf, heq⟩ := (hs.modified hu hcarries h).of_bind
    cases heq.done_inj
    exact ⟨hf, rfl⟩
  getAndUpdate := fun hcarries h => by
    obtain ⟨made, hf, heq⟩ := (hs.modified hu hcarries h).of_bind
    cases heq.done_inj
    exact ⟨hf, rfl⟩
  getAndSet := fun hcarries h => by
    cases (hs.modified hu hcarries h).done_inj
    exact ⟨rfl, rfl⟩
  updateSome := fun hcarries h => by
    obtain ⟨made, hf, heq⟩ := (hs.modifiedSome hu hcarries h).of_bind
    cases made with
    | none => cases heq.done_inj
    | some made =>
      cases heq.done_inj
      exact ⟨hf, rfl⟩

/-- An update ends once. -/
theorem last_unique {e e' : CellEvent} (hs : Follows cell c₀ past s) (he : e ∈ past) (he' : e' ∈ past)
    (hwho : e.who? = some i) (hwho' : e'.who? = some i) (hlast : e.isLast = true)
    (hlast' : e'.isLast = true) : e = e' := by
  obtain ⟨before, after, hsplit⟩ := List.append_of_mem he
  have hover := ((hs.kept before e after hsplit).underWay hwho).2
  rw [hsplit] at he'
  rcases List.mem_append.mp he' with he' | he'
  · exact absurd ⟨e', he', hwho', hlast'⟩ hover
  rcases List.mem_cons.mp he' with rfl | he'
  · rfl
  · obtain ⟨between, rest, rfl⟩ := List.append_of_mem he'
    have hsplit' : past = (before ++ e :: between) ++ e' :: rest := by simpa using hsplit
    exact absurd ⟨e, by simp, hwho, hlast⟩ ((hs.kept _ e' rest hsplit').underWay hwho').2

theorem promises (hs : Follows cell c₀ past s) : Linearizable cell c₀ past s where
  holds := ⟨_, hs.cell, Cell.value_after c₀ past, Cell.version_after c₀ past⟩
  commits := fun before i seen result next after hsplit => by
    obtain ⟨calls, since, hlast, hnothing, hseen⟩ := hs.kept before _ after hsplit
    exact ⟨hseen.trans (Cell.value_after c₀ before), calls, since, hlast, hnothing⟩
  declines := fun before i result after hsplit => hs.kept before _ after hsplit
  panics := fun before i d after hsplit => hs.kept before _ after hsplit
  overtaken := fun before i after hsplit => hs.kept before _ after hsplit
  calls := fun before i n seen after hsplit =>
    (hs.kept before _ after hsplit).2.2.trans (Cell.value_after c₀ before)
  reads := fun before v after hsplit =>
    (show v = _ from hs.kept before _ after hsplit).trans (Cell.value_after c₀ before)
  once := fun before e after i hsplit hwho => ((hs.kept before e after hsplit).underWay hwho).2
  nothing := fun i h seen result next hcommitted => by
    rcases h with ⟨v, h⟩ | ⟨d, h⟩ <;> cases hs.last_unique h hcommitted rfl rfl rfl rfl
  returned := fun i f v hu => hs.stages i _ hu
  returns := fun i seen result next h => by
    obtain ⟨before, after, hsplit⟩ := List.append_of_mem h
    have hlt := ((hs.kept before _ after hsplit).underWay rfl).1
    rw [functions, List.length_map] at hlt
    obtain ⟨⟨f, stage⟩, hu⟩ : ∃ updater, s.updaters[i]? = some updater :=
      ⟨_, List.getElem?_eq_getElem hlt⟩
    have hstage := hs.stages i _ hu
    cases stage with
    | ready calls => exact absurd ⟨_, h, rfl, rfl⟩ hstage
    | running calls c rest =>
      obtain ⟨since, hlast, -⟩ := hstage
      exact absurd ⟨_, h, rfl, rfl⟩ hlast.underWay
    | returned v =>
      rcases hstage with ⟨seen', next', h'⟩ | h'
      · cases hs.last_unique h h' rfl rfl rfl rfl
        exact ⟨f, hu⟩
      · cases hs.last_unique h h' rfl rfl rfl rfl
    | panicked d => cases hs.last_unique h hstage rfl rfl rfl rfl
  effects := fun i updater hu => hs.tells hu

end Follows

/-- **Updates are linearizable**: in whatever order the snapshots, the operations of the functions and
the commits of any number of updates happen, with reads and writes of others in between, all promises
to those who use the cell are kept. -/
theorem Run.linearizable {cell : CellId} {w : World} {c₀ : Cell Value} {record : List CellEvent}
    {s : Contention} (hc : w.store.cell? cell = some c₀) (h : Run cell ⟨w, []⟩ record s) :
    Linearizable cell c₀ record s := by
  have hstart : Follows cell c₀ [] ⟨w, []⟩ := ⟨hc, by simp, by simp⟩
  exact (hstart.run h).promises

/-- The world with one cell. -/
def oneCell : World := ((Action.newCell .unit).run (.init 0)).2

/-- Puts a value into a list. -/
def enlist (_ : Nat) (v : Value) : Action (Update Value) := .done ⟨v, some (.list [v])⟩

/-- Two updates see the same value; one is faster, and the other is overtaken and tries again. -/
theorem run_race :
    Run ⟨0⟩ ⟨oneCell, []⟩
      [.called 0 0 .unit, .called 1 0 .unit, .committed 0 .unit .unit (.list [.unit]), .overtaken 1,
        .called 1 1 (.list [.unit]),
        .committed 1 (.list [.unit]) (.list [.unit]) (.list [.list [.unit]])]
      ⟨(oneCell.setCell ⟨0⟩ ⟨1, .list [.unit]⟩).setCell ⟨0⟩ ⟨2, .list [.list [.unit]]⟩,
        [⟨enlist, .returned .unit⟩, ⟨enlist, .returned (.list [.unit])⟩]⟩ := by
  let w₁ := oneCell.setCell ⟨0⟩ ⟨1, .list [.unit]⟩
  have hnext {s s' s'' : Contention} {e : CellEvent} {record : List CellEvent}
      (h : Move ⟨0⟩ s [e] s') (h' : Run ⟨0⟩ s' record s'') : Run ⟨0⟩ s (e :: record) s'' := .move h h'
  have hfirst : oneCell.commitUpdate ⟨0⟩ 0 ⟨.unit, some (.list [.unit])⟩ = (.finished .unit, w₁) := rfl
  have hlate : w₁.commitUpdate ⟨0⟩ 0 ⟨.unit, some (.list [.unit])⟩ = (.overtaken, w₁) := rfl
  refine .move (.enter enlist) (.move (.enter enlist) ?_)
  -- both take their snapshots before either of them is through
  refine hnext (.snapshot (i := 0) (c := ⟨0, .unit⟩) rfl rfl) ?_
  refine hnext (.snapshot (i := 1) (c := ⟨0, .unit⟩) rfl rfl) ?_
  refine hnext (.commit (i := 0) (c := ⟨0, .unit⟩) rfl hfirst) ?_
  refine hnext (.commit (i := 1) (c := ⟨0, .unit⟩) rfl hlate) ?_
  refine hnext (.snapshot (i := 1) (c := ⟨1, .list [.unit]⟩) rfl rfl) ?_
  exact hnext (.commit (i := 1) (c := ⟨1, .list [.unit]⟩) (u := ⟨_, some _⟩) rfl rfl) .rest

theorem Run.linearizable_race : ∃ c record s, oneCell.store.cell? ⟨0⟩ = some c ∧
    Run ⟨0⟩ ⟨oneCell, []⟩ record s ∧ Linearizable ⟨0⟩ c record s ∧ s.updaters.length = 2 :=
  ⟨.new .unit, _, _, rfl, run_race, Run.linearizable rfl run_race, rfl⟩

end Contention

end Fibers
