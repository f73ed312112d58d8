import Fibers.Effect.Shared
import Fibers.Proofs.Workshop

/-!
# Updates of one cell

An update takes a snapshot of a cell, calls its function on the value, and writes what the function
has made of it if nobody has written to the cell since.  Nothing keeps others from the cell in the
meantime: other updates may take snapshots and write, values may be written without looking, and the
function itself is code that writes to the cell if it likes.  Here every operation of every function
is a move of its own, so that all of them may happen in between.

What has been written is kept in a record, in the order of the writes.  A cell is what its writes
have made of it, its version counts them, and so a snapshot that still has the version of the cell is
the cell.

## Main definitions

* `Action.Leads` — what is left of an action when some of its operations have been carried out.
* `Contention` — a world and the updates that are under way in it; `Updater`, `Stage`.
* `CellEvent` — what happens to the cell, and `CellEvent.written` — the values written to it.
* `Contention.Move`, `Contention.Run` — everything that may happen, in any order.
* `Cell.after` — the cell after some events.

## Main results

* `Contention.Move.cell?` — a cell is what its writes have made of it.
* `Cell.version_after_eq_iff` — a cell that has the version of a snapshot has not been written to.
* `Contention.Run.of_attemptUpdate`, `Contention.Run.of_updateCell` — the updates that the runtime makes
  in one go are runs.
-/

namespace Fibers

/-! ### Code that is carried out piece by piece -/

/-- `a.Leads b`: when some of the operations of `a` have been carried out, whatever they replied,
`b` is left. -/
inductive Action.Leads {α : Type} : Action α → Action α → Prop where
  /-- No operation has been carried out. -/
  | refl (a : Action α) : Leads a a
  /-- The first operation has been carried out, and some that follow. -/
  | operation {op : Operation} {next : op.Reply → Action α} {b : Action α} (reply : op.Reply) :
      Leads (next reply) b → Leads (.perform op next) b

namespace Action.Leads

variable {α β : Type} {a b : Action α}

/-- One more operation is carried out. -/
theorem perform {op : Operation} {next : op.Reply → Action α} (h : a.Leads (.perform op next))
    (reply : op.Reply) : a.Leads (next reply) := by
  generalize hb : Action.perform op next = b at h
  induction h with
  | refl a =>
    subst hb
    exact .operation reply (.refl _)
  | operation reply' _ ih => exact .operation reply' (ih hb)

/-- What comes of two actions in order comes of the second, with what has come of the first. -/
theorem of_bind {k : α → Action β} {x : β} (h : (a >>= k).Leads (.done x)) :
    ∃ y, a.Leads (.done y) ∧ (k y).Leads (.done x) := by
  induction a with
  | done y => exact ⟨y, .refl _, h⟩
  | panic d => cases h
  | perform op next ih =>
    obtain ⟨reply, h⟩ : ∃ reply, (next reply >>= k).Leads (.done x) := by
      cases h with
      | operation reply h => exact ⟨reply, h⟩
    obtain ⟨y, hy, hx⟩ := ih reply h
    exact ⟨y, .operation reply hy, hx⟩

theorem done_inj {x y : α} (h : (Action.done x).Leads (.done y)) : x = y := by
  cases h
  rfl

end Action.Leads

/-! ### Updates under way -/

/-- How far an update has come. -/
inductive Stage where
  /-- It is about to take a snapshot; its function has been called as often as told. -/
  | ready (calls : Nat)
  /-- Its function has been called on a snapshot after as many calls before, and the rest of it is to
  be carried out. -/
  | running (calls : Nat) (seen : Cell Value) (rest : Action (Update Value))
  /-- It has returned a value. -/
  | returned (v : Value)
  /-- Its function has panicked. -/
  | panicked (d : Defect)

/-- An update of a cell. -/
structure Updater where
  /-- The function, which is told how often it has been called and what the cell holds. -/
  f : Nat → Value → Action (Update Value)
  /-- How far the update has come. -/
  stage : Stage

/-- A world and the updates of a cell that are under way in it, in the order in which they came. -/
structure Contention where
  /-- The world. -/
  world : World
  /-- The updates. -/
  updaters : List Updater

/-- What happens to a cell.  Updates are told by their positions. -/
inductive CellEvent where
  /-- The value is read. -/
  | read (v : Value)
  /-- A value is written whatever the cell holds. -/
  | wrote (v : Value)
  /-- The function of an update is called, after as many calls before, on the value of a snapshot. -/
  | called (who calls : Nat) (seen : Value)
  /-- An update writes a value in the place of the one its function has seen, and returns. -/
  | committed (who : Nat) (seen result next : Value)
  /-- An update returns without writing. -/
  | declined (who : Nat) (result : Value)
  /-- The function of an update panics. -/
  | panicked (who : Nat) (d : Defect)
  /-- An update finds that the cell has been written to. -/
  | overtaken (who : Nat)

namespace CellEvent

/-- The value that is written. -/
def write? : CellEvent → Option Value
  | .wrote v => some v
  | .committed _ _ _ next => some next
  | .read _ => none
  | .called _ _ _ => none
  | .declined _ _ => none
  | .panicked _ _ => none
  | .overtaken _ => none

/-- The update that does something. -/
def who? : CellEvent → Option Nat
  | .called i _ _ => some i
  | .committed i _ _ _ => some i
  | .declined i _ => some i
  | .panicked i _ => some i
  | .overtaken i => some i
  | .read _ => none
  | .wrote _ => none

/-- Whether an update is over. -/
def isLast : CellEvent → Bool
  | .committed _ _ _ _ => true
  | .declined _ _ => true
  | .panicked _ _ => true
  | .read _ => false
  | .wrote _ => false
  | .called _ _ _ => false
  | .overtaken _ => false

/-- The values written, in the order of the writes. -/
def written (record : List CellEvent) : List Value := record.filterMap write?

theorem written_append (record record' : List CellEvent) :
    written (record ++ record') = written record ++ written record' := List.filterMap_append

end CellEvent

/-- What happens to the cell when an operation is carried out. -/
def Operation.cellEvents (cell : CellId) : Operation → List CellEvent
  | .writeCell target v => if target = cell then [.wrote v] else []
  | _ => []

theorem Operation.cellEvents_cases (op : Operation) (cell : CellId) :
    op.cellEvents cell = [] ∨ ∃ v, op.cellEvents cell = [.wrote v] := by
  cases op with
  | writeCell target v =>
    simp only [cellEvents]
    split
    · exact .inr ⟨v, rfl⟩
    · exact .inl rfl
  | _ => exact .inl rfl

namespace Attempt

/-- How far an update has come with an attempt, after as many calls before. -/
def stage (calls : Nat) : Attempt → Stage
  | .finished v => .returned v
  | .panicked d => .panicked d
  | .overtaken => .ready (calls + 1)

/-- What happens to the cell with an attempt whose function has made `u` of what it has seen. -/
def cellEvents (who : Nat) (seen : Value) (u : Update Value) : Attempt → List CellEvent
  | .finished v =>
    match u.next with
    | some next => [.committed who seen v next]
    | none => [.declined who v]
  | .panicked d => [.panicked who d]
  | .overtaken => [.overtaken who]

end Attempt

namespace Contention

/-- What may happen next to those who use a cell. -/
inductive Move (cell : CellId) : Contention → List CellEvent → Contention → Prop where
  /-- An update is asked for. -/
  | enter {w : World} {us : List Updater} (f : Nat → Value → Action (Update Value)) :
      Move cell ⟨w, us⟩ [] ⟨w, us ++ [⟨f, .ready 0⟩]⟩
  /-- Something happens that leaves the cell alone. -/
  | elsewhere {w w' : World} {us : List Updater} :
      w'.store.cell? cell = w.store.cell? cell → Move cell ⟨w, us⟩ [] ⟨w', us⟩
  /-- The value is read. -/
  | read {w w' : World} {us : List Updater} {v : Value} :
      cell.read.run w = (.ok v, w') → Move cell ⟨w, us⟩ [.read v] ⟨w', us⟩
  /-- A value is written. -/
  | write {w : World} {us : List Updater} (v : Value) :
      Move cell ⟨w, us⟩ [.wrote v] ⟨((Action.writeCell cell v).run w).2, us⟩
  /-- An update takes a snapshot and calls its function. -/
  | snapshot {w : World} {us : List Updater} {i calls : Nat} {c : Cell Value}
      {f : Nat → Value → Action (Update Value)} :
      us[i]? = some ⟨f, .ready calls⟩ → w.store.cell? cell = some c →
      Move cell ⟨w, us⟩ [.called i calls c.value]
        ⟨w, us.set i ⟨f, .running calls c (f calls c.value)⟩⟩
  /-- One operation of a function is carried out. -/
  | operate {w : World} {us : List Updater} {i calls : Nat} {c : Cell Value}
      {f : Nat → Value → Action (Update Value)} {op : Operation}
      {next : op.Reply → Action (Update Value)} :
      us[i]? = some ⟨f, .running calls c (.perform op next)⟩ →
      Move cell ⟨w, us⟩ (op.cellEvents cell)
        ⟨(w.perform op).2, us.set i ⟨f, .running calls c (next (w.perform op).1)⟩⟩
  /-- A function panics. -/
  | panic {w : World} {us : List Updater} {i calls : Nat} {c : Cell Value}
      {f : Nat → Value → Action (Update Value)} {d : Defect} :
      us[i]? = some ⟨f, .running calls c (.panic d)⟩ →
      Move cell ⟨w, us⟩ [.panicked i d] ⟨w, us.set i ⟨f, .panicked d⟩⟩
  /-- A function is through, and what it has made is written if nobody was faster. -/
  | commit {w w' : World} {us : List Updater} {i calls : Nat} {c : Cell Value}
      {f : Nat → Value → Action (Update Value)} {u : Update Value} {attempt : Attempt} :
      us[i]? = some ⟨f, .running calls c (.done u)⟩ →
      w.commitUpdate cell c.version u = (attempt, w') →
      Move cell ⟨w, us⟩ (attempt.cellEvents i c.value u)
        ⟨w', us.set i ⟨f, attempt.stage calls⟩⟩

/-- Whatever may happen, one thing after the other. -/
inductive Run (cell : CellId) : Contention → List CellEvent → Contention → Prop where
  /-- Nothing happens. -/
  | rest {s : Contention} : Run cell s [] s
  /-- One thing happens, then others. -/
  | move {s s' s'' : Contention} {events record : List CellEvent} :
      Move cell s events s' → Run cell s' record s'' → Run cell s (events ++ record) s''

end Contention

/-! ### A cell is what its writes have made of it -/

/-- The cell after some events: everything that is written replaces the value. -/
def Cell.after (c : Cell Value) (record : List CellEvent) : Cell Value :=
  (CellEvent.written record).foldl Cell.write c

namespace Cell

variable {c : Cell Value} {record record' : List CellEvent}

@[simp] theorem after_nil (c : Cell Value) : c.after [] = c := rfl

theorem after_append (c : Cell Value) (record record' : List CellEvent) :
    c.after (record ++ record') = (c.after record).after record' := by
  rw [after, CellEvent.written_append, List.foldl_append]
  rfl

/-- **The version counts the writes.** -/
theorem version_after (c : Cell Value) (record : List CellEvent) :
    (c.after record).version = c.version + (CellEvent.written record).length := by
  unfold after
  generalize CellEvent.written record = vs
  induction vs generalizing c with
  | nil => rfl
  | cons v vs ih =>
    rw [List.foldl_cons, ih, List.length_cons]
    change c.version + 1 + vs.length = _
    omega

/-- The value is the last one written. -/
theorem value_after (c : Cell Value) (record : List CellEvent) :
    (c.after record).value = (CellEvent.written record).getLastD c.value := by
  unfold after
  generalize CellEvent.written record = vs
  induction vs generalizing c with
  | nil => rfl
  | cons v vs ih =>
    rw [List.foldl_cons, ih, write, List.getLastD_cons]

/-- **A cell that has the version of a snapshot has not been written to since.** -/
theorem version_after_eq_iff :
    (c.after record).version = c.version ↔ CellEvent.written record = [] := by
  rw [version_after, ← List.length_eq_zero_iff]
  omega

theorem after_of_written (h : CellEvent.written record = []) : c.after record = c := by
  rw [after, h, List.foldl_nil]

end Cell

namespace World

variable {w w' : World} {cell : CellId} {c : Cell Value}

theorem cell?_of_cells (h : w'.store.cells = w.store.cells) (cell : CellId) :
    w'.store.cell? cell = w.store.cell? cell := by
  rw [Store.cell?, Store.cell?, h]

/-- Completing a wait leaves all cells alone. -/
theorem cells_close (w : World) (channel : ChannelId) (source : FiberId) :
    (w.close channel source).store.cells = w.store.cells := by
  unfold close
  split
  · rfl
  · simp [Store.setChannel]

theorem cells_takeElement (w : World) (channel : ChannelId) (ch : Channel Value SuspensionId) :
    (w.takeElement channel ch).2.store.cells = w.store.cells := by
  unfold takeElement
  split
  · simp [Store.setChannel]
  · rfl

theorem cells_takeUpTo (w : World) (channel : ChannelId) (limit : Nat) :
    (w.takeUpTo channel limit).2.store.cells = w.store.cells := by
  induction limit generalizing w with
  | zero => rfl
  | succ limit ih =>
    simp only [takeUpTo]
    split
    · rfl
    · next ch _ =>
      have helement := w.cells_takeElement channel ch
      split
      · next w' heq =>
        rw [heq] at helement
        exact helement
      · next v w' heq =>
        rw [heq] at helement
        exact (ih w').trans helement

theorem cells_drain (w : World) (channel : ChannelId) (limit : Option Nat) :
    (w.drain channel limit).2.store.cells = w.store.cells := by
  unfold drain
  split
  · rfl
  · split
    · rfl
    · exact cells_takeUpTo _ _ _

theorem cells_answer (w : World) (s : SuspensionId) (outcome : Outcome) :
    (w.answer s outcome).2.store.cells = w.store.cells := by
  unfold answer
  split
  · rw [store_resume]
  · rfl

/-- **An operation changes a cell only by writing to it.** -/
theorem cell?_perform (hc : w.store.cell? cell = some c) (op : Operation) :
    (w.perform op).2.store.cell? cell = some (c.after (op.cellEvents cell)) := by
  cases op with
  | newCell v =>
    have hne : cell.index ≠ w.store.cells.next := by
      intro heq
      rw [Store.cell?, heq, Numbered.get?_next] at hc
      cases hc
    exact ((Numbered.get?_push _ _ _).trans (if_neg hne)).trans hc
  | writeCell target v =>
    have hindex : cell.index = target.index ↔ target = cell := by
      cases cell
      cases target
      simp [eq_comm]
    change (w.store.cells.modify target.index (·.write v)).get? cell.index = _
    rw [Numbered.get?_modify, show w.store.cells.get? cell.index = some c from hc]
    by_cases heq : target = cell
    · rw [if_pos (hindex.mpr heq), Operation.cellEvents, if_pos heq]
      rfl
    · rw [if_neg (fun h => heq (hindex.mp h)), Operation.cellEvents, if_neg heq]
      rfl
  | drain channel limit => exact (cell?_of_cells (w.cells_drain channel limit) cell).trans hc
  | close channel source => exact (cell?_of_cells (w.cells_close channel source) cell).trans hc
  | complete waiter outcome => exact (cell?_of_cells (w.cells_answer waiter outcome) cell).trans hc
  | newChannel capacity =>
    refine Eq.trans ?_ hc
    simp only [perform]
    split <;> rfl
  | observe | log _ | keep _ _ | newMark | useMark _ | newLease _ => exact hc

theorem cell?_setCell (hc : w.store.cell? cell = some c) (written : Cell Value) :
    (w.setCell cell written).store.cell? cell = some written := by
  change (w.store.cells.modify cell.index fun _ => written).get? cell.index = _
  rw [Numbered.get?_modify, if_pos rfl, show w.store.cells.get? cell.index = some c from hc]
  rfl

/-- **What comes of an update that has seen a version of a cell**: it leaves the cell, or writes to
it because nobody has written since, or is overtaken. -/
theorem commitUpdate_cases {attempt : Attempt} {version : Nat} {u : Update Value}
    (hc : w.store.cell? cell = some c) (h : w.commitUpdate cell version u = (attempt, w')) :
    (u.next = none ∧ attempt = .finished u.result ∧ w' = w) ∨
      (∃ next, u.next = some next ∧ c.version = version ∧ attempt = .finished u.result ∧
        w' = w.setCell cell (c.write next)) ∨
      ((∃ next, u.next = some next) ∧ c.version ≠ version ∧ attempt = .overtaken ∧ w' = w) := by
  unfold commitUpdate at h
  cases hnext : u.next with
  | none =>
    obtain ⟨rfl, rfl⟩ := Prod.mk.inj (by simpa [hnext] using h)
    exact Or.inl ⟨rfl, rfl, rfl⟩
  | some next =>
    simp only [hnext, hc, Option.bind_some, Cell.commit] at h
    by_cases hversion : c.version = version
    · simp only [if_pos hversion] at h
      obtain ⟨rfl, rfl⟩ := Prod.mk.inj h
      exact Or.inr (Or.inl ⟨next, rfl, hversion, rfl, rfl⟩)
    · simp only [if_neg hversion] at h
      obtain ⟨rfl, rfl⟩ := Prod.mk.inj h
      exact Or.inr (Or.inr ⟨⟨next, rfl⟩, hversion, rfl, rfl⟩)

end World

namespace Contention

variable {cell : CellId} {s s' : Contention} {events : List CellEvent} {c : Cell Value}

/-- **A cell is what its writes have made of it.** -/
theorem Move.cell? (h : Move cell s events s') (hc : s.world.store.cell? cell = some c) :
    s'.world.store.cell? cell = some (c.after events) := by
  cases h with
  | enter f => exact hc
  | elsewhere hsame => exact hsame.trans hc
  | @read w w' us v hread =>
    obtain ⟨rfl⟩ : w' = w := (Prod.mk.inj hread).2.symm
    exact hc
  | @write w us v =>
    refine (World.cell?_perform hc (.writeCell cell v)).trans ?_
    rw [Operation.cellEvents, if_pos rfl]
  | snapshot _ _ => exact hc
  | @operate w us i calls c' f op next _ => exact World.cell?_perform hc op
  | panic _ => exact hc
  | @commit w w' us i calls c' f u attempt _ hcommit =>
    rcases World.commitUpdate_cases hc hcommit with
      ⟨hnext, rfl, rfl⟩ | ⟨next, hnext, -, rfl, rfl⟩ | ⟨-, -, rfl, rfl⟩
    · simp only [Attempt.cellEvents, hnext]
      exact hc
    · simp only [Attempt.cellEvents, hnext]
      exact World.cell?_setCell hc _
    · exact hc

end Contention

/-! ### Updates in one go -/

/-- How far an update has come with what it leads to. -/
def Stage.ofResult : Except Defect Value → Stage
  | .ok v => .returned v
  | .error d => .panicked d

/-- What is left of an action that is through. -/
def Action.through {α : Type} : Except Defect α → Action α
  | .ok a => .done a
  | .error d => .panic d

namespace Contention

variable {cell : CellId} {w w' : World} {us : List Updater} {i calls : Nat} {c : Cell Value}
variable {f : Nat → Value → Action (Update Value)} {s s' s'' : Contention}
variable {record record' : List CellEvent}

namespace Run

theorem append (h : Run cell s record s') (h' : Run cell s' record' s'') :
    Run cell s (record ++ record') s'' := by
  induction h with
  | rest => exact h'
  | move hmove _ ih =>
    rw [List.append_assoc]
    exact .move hmove (ih h')

theorem of_move (h : Move cell s record s') : Run cell s record s' := by
  have hrun := Run.move h .rest
  rwa [List.append_nil] at hrun

theorem cell? (h : Run cell s record s') (hc : s.world.store.cell? cell = some c) :
    s'.world.store.cell? cell = some (c.after record) := by
  induction h generalizing c with
  | rest => exact hc
  | move hmove _ ih =>
    rw [Cell.after_append]
    exact ih (hmove.cell? hc)

/-- A function that is carried out in one go is carried out. -/
theorem of_function (hlt : i < us.length) (a : Action (Update Value)) (w : World) :
    ∃ record, Run cell ⟨w, us.set i ⟨f, .running calls c a⟩⟩ record
      ⟨(a.run w).2, us.set i ⟨f, .running calls c (.through (a.run w).1)⟩⟩ := by
  induction a generalizing w with
  | done u => exact ⟨[], .rest⟩
  | panic d => exact ⟨[], .rest⟩
  | perform op next ih =>
    obtain ⟨record, hrun⟩ := ih (w.perform op).1 (w.perform op).2
    have hmove : Move cell ⟨w, us.set i ⟨f, .running calls c (.perform op next)⟩⟩ (op.cellEvents cell)
        ⟨(w.perform op).2, (us.set i ⟨f, .running calls c (.perform op next)⟩).set i
          ⟨f, .running calls c (next (w.perform op).1)⟩⟩ := .operate (by simp [hlt])
    rw [List.set_set] at hmove
    exact ⟨_, .move hmove hrun⟩

/-- **An attempt in one go**, as the runtime makes it, is a snapshot, the operations of the function and
a commit. -/
theorem of_attemptUpdate (hc : w.store.cell? cell = some c) (hu : us[i]? = some ⟨f, .ready calls⟩) :
    ∃ record, Run cell ⟨w, us⟩ record ⟨(w.attemptUpdate cell (f calls)).2,
      us.set i ⟨f, (w.attemptUpdate cell (f calls)).1.stage calls⟩⟩ := by
  obtain ⟨hlt, -⟩ := List.getElem?_eq_some_iff.mp hu
  obtain ⟨record, hcall⟩ : ∃ record, Run cell _ record _ := of_function hlt (f calls c.value) w
  have hcalled := Run.move (.snapshot hu hc) hcall
  unfold World.attemptUpdate
  simp only [hc]
  rcases hresult : (f calls c.value).run w with ⟨d | u, w'⟩ <;> rw [hresult] at hcalled
  · have hpanic := hcalled.append (of_move (.panic (List.getElem?_set_self hlt)))
    rw [List.set_set] at hpanic
    exact ⟨_, hpanic⟩
  · have hcommit := hcalled.append (of_move (.commit (List.getElem?_set_self hlt) rfl))
    rw [List.set_set] at hcommit
    exact ⟨_, hcommit⟩

/-- **Attempts until one is not overtaken** are a run in which nobody else does anything. -/
theorem of_updateCell {n calls' : Nat} {result : Except Defect Value}
    (hc : w.store.cell? cell = some c) (hu : us[i]? = some ⟨f, .ready calls⟩)
    (h : World.updateCell cell f n calls w = (some result, calls', w')) :
    ∃ record, Run cell ⟨w, us⟩ record ⟨w', us.set i ⟨f, .ofResult result⟩⟩ := by
  induction n generalizing w us calls c with
  | zero => cases h
  | succ n ih =>
    obtain ⟨hlt, -⟩ := List.getElem?_eq_some_iff.mp hu
    obtain ⟨record, hattempt⟩ := of_attemptUpdate hc hu
    unfold World.updateCell at h
    rcases hresult : w.attemptUpdate cell (f calls) with ⟨v | d | _, w₁⟩ <;>
      simp only [hresult] at h hattempt
    · cases h
      exact ⟨record, hattempt⟩
    · cases h
      exact ⟨record, hattempt⟩
    · obtain ⟨record', hrest⟩ := ih (hattempt.cell? hc) (List.getElem?_set_self hlt) h
      rw [List.set_set] at hrest
      exact ⟨_, hattempt.append hrest⟩

end Run

end Contention

end Fibers
