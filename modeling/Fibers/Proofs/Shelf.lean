import Fibers.Proofs.Chronicle

/-!
# The exit of a fiber

The exit of a fiber is put down when the fiber finishes, and is there for one taker.  Whoever takes
it sees it at the type of failures it waits with; a waiter that turns out to be gone puts it back as
it has seen it.  That changes nothing for anybody who waits with the same type, so an exit may pass
through any number of hands.  In the place of an exit that has been taken there is a defect, and
that stays what it is in anybody's hands.

## Main definitions

* `Exit.passed` — an outcome that has been through the hands of waiters.
* `FiberNames.observed` — what is seen in the place of an exit that has been taken.
* `Store.exit?` — the exit of a fiber, as long as nobody has taken it.

## Main results

* `Exit.untag_passed` — **an exit that has been put back is seen as it was.**
-/

namespace Fibers

/-! ### Substitution after substitution -/

namespace Cause

variable {ε ε' ε'' : Type}

theorem andThen_empty (c : Cause ε) : c.andThen .empty = c := by cases c <;> rfl

theorem alongside_empty (c : Cause ε) : c.alongside .empty = c := by cases c <;> rfl

theorem flatMap_andThen (f : ε → Cause ε') (left right : Cause ε) :
    (left.andThen right).flatMap f = (left.flatMap f).andThen (right.flatMap f) := by
  by_cases hright : right = .empty
  · rw [hright, andThen_empty, flatMap, andThen_empty]
  · -- what is left out is an empty left side
    cases left <;> cases right <;> first | rfl | exact absurd rfl hright

theorem flatMap_alongside (f : ε → Cause ε') (left right : Cause ε) :
    (left.alongside right).flatMap f = (left.flatMap f).alongside (right.flatMap f) := by
  by_cases hright : right = .empty
  · rw [hright, alongside_empty, flatMap, alongside_empty]
  · cases left <;> cases right <;> first | rfl | exact absurd rfl hright

theorem flatMap_flatMap (f : ε → Cause ε') (g : ε' → Cause ε'') (c : Cause ε) :
    (c.flatMap f).flatMap g = c.flatMap fun e => (f e).flatMap g := by
  induction c with
  | seq left right ihl ihr => simp only [flatMap, flatMap_andThen, ihl, ihr]
  | par left right ihl ihr => simp only [flatMap, flatMap_alongside, ihl, ihr]
  | empty | fail _ | die _ | interrupt _ => rfl

end Cause

theorem Halt.flatMap_flatMap {ε ε' ε'' : Type} (f : ε → Cause ε') (g : ε' → Cause ε'')
    (h : Halt ε) : (h.flatMap f).flatMap g = h.flatMap fun e => (f e).flatMap g := by
  simp only [Halt.flatMap, List.map_map, Cause.flatMap_flatMap, Function.comp_def]

namespace Halt

/-- A halt that is put into the interpreter and taken out again has its failures handed on. -/
theorem untag_tag_eq (type : ErrorType) (h : Halt Value) :
    (h.tag type).untag type = h.flatMap .fail := by
  simp only [untag, tag, map, flatMap_flatMap]
  congr 1
  funext e
  simp [Cause.flatMap]

/-- A halt that has been seen at a type and put back is seen at that type as it was. -/
theorem untag_tag_untag (type : ErrorType) (h : Halt Failure) :
    ((h.untag type).tag type).untag type = h.untag type := by
  simp only [untag, tag, map, flatMap_flatMap]
  congr 1
  funext e
  split <;> simp [Cause.flatMap]

end Halt

namespace Exit

/-- An outcome after waiters with the given types have seen it and put it back. -/
def passed (types : List ErrorType) (o : Outcome) : Outcome :=
  types.foldl (fun o type => (o.untag type).tag type) o

theorem passed_append (types : List ErrorType) (type : ErrorType) (o : Outcome) :
    o.passed (types ++ [type]) = ((o.passed types).untag type).tag type := by
  simp [passed]

theorem untag_tag_untag (type : ErrorType) (o : Outcome) :
    ((o.untag type).tag type).untag type = o.untag type := by
  cases o with
  | done v => rfl
  | halt h => exact congrArg Exit.halt (h.untag_tag_untag type)

theorem tag_eq_done_iff {type : ErrorType} {x : Exit Value Value} {v : Value} :
    x.tag type = .done v ↔ x = .done v := by
  cases x <;> simp [tag]

theorem tag_eq_halt_iff {type : ErrorType} {x : Exit Value Value} {h : Halt Failure} :
    x.tag type = .halt h ↔ ∃ g, x = .halt g ∧ g.tag type = h := by
  cases x <;> simp [tag]

theorem untag_eq_halt_iff {type : ErrorType} {o : Outcome} {h : Halt Value} :
    o.untag type = .halt h ↔ ∃ g, o = .halt g ∧ g.untag type = h := by
  cases o <;> simp [untag]

/-- A value that has been put back is that value. -/
theorem passed_done (types : List ErrorType) (v : Value) :
    (Exit.done v : Outcome).passed types = .done v := by
  induction types with
  | nil => rfl
  | cons type types ih => exact ih

/-- A failure that has been put back is a failure. -/
theorem passed_halt (types : List ErrorType) (h : Halt Failure) :
    ∃ h', (Exit.halt h : Outcome).passed types = .halt h' := by
  induction types generalizing h with
  | nil => exact ⟨h, rfl⟩
  | cons type types ih => exact ih _

/-- **An exit that has been put back is seen as it was**, by everybody who waits with the type of
those who have put it back. -/
theorem untag_passed {types : List ErrorType} {type : ErrorType}
    (h : ∀ other ∈ types, other = type) (o : Outcome) :
    (o.passed types).untag type = o.untag type := by
  induction types generalizing o with
  | nil => rfl
  | cons other types ih =>
    obtain ⟨rfl, hrest⟩ := List.forall_mem_cons.mp h
    exact (ih hrest _).trans (untag_tag_untag other o)

end Exit

/-- What is seen in the place of the exit of a fiber that has been taken: a halt whose only leaf is
the defect that says so. -/
def FiberNames.observed (names : FiberNames) (fiber : FiberId) : Exit Value Value :=
  .die (.runtime s!"exit of {names.display fiber} was already observed")

/-- The exit of a fiber, as long as nobody has taken it. -/
def Store.exit? (s : Store) (fiber : FiberId) : Option Outcome :=
  (s.fiber? fiber).bind FiberRecord.exit

/-- A fiber is known to have failed if a failure is its exit. -/
theorem Store.hasFailed_of_exit? {s : Store} {fiber : FiberId} {o : Outcome}
    (h : s.exit? fiber = some o) : s.hasFailed fiber = o.isHalt := by
  obtain ⟨r, hr, hexit⟩ := Option.bind_eq_some_iff.mp h
  rw [hasFailed, hr, Option.any_some, FiberRecord.hasFailed, hexit]
  cases o <;> rfl

namespace World

variable {w : World} {fiber : FiberId}

theorem untag_exitTaken (w : World) (fiber : FiberId) (type : ErrorType) :
    (w.exitTaken fiber).untag type = w.store.names.observed fiber := rfl

theorem tag_observed (w : World) (fiber : FiberId) (type : ErrorType) :
    (w.store.names.observed fiber).tag type = w.exitTaken fiber := rfl

/-! ### What is found after a change of a record -/

theorem exit?_modifyFiber (w : World) (id other : FiberId) (f : FiberRecord → FiberRecord) :
    (w.modifyFiber id f).store.exit? other =
      if other = id then (w.store.fiber? id).bind fun r => (f r).exit
      else w.store.exit? other := by
  simp only [Store.exit?, modifyFiber, Store.fiber?_modifyFiber]
  split
  · cases w.store.fiber? id <;> rfl
  · rfl

theorem isFinished_modifyFiber (w : World) (id other : FiberId) {f : FiberRecord → FiberRecord}
    (hf : ∀ r : FiberRecord, (f r).finished = r.finished) :
    (w.modifyFiber id f).store.isFinished other = w.store.isFinished other := by
  simp only [Store.isFinished, modifyFiber, Store.fiber?_modifyFiber]
  split
  · next heq =>
    subst heq
    cases w.store.fiber? other <;> simp [hf]
  · rfl

theorem takeExit_of_some {o : Outcome} (h : w.store.exit? fiber = some o) :
    w.takeExit fiber = (o, w.modifyFiber fiber fun f => { f with exit := none }) := by
  unfold Store.exit? at h
  unfold takeExit
  rw [h]

theorem takeExit_of_none (h : w.store.exit? fiber = none)
    (hfinished : w.store.isFinished fiber = true) : w.takeExit fiber = (w.exitTaken fiber, w) := by
  unfold Store.exit? at h
  unfold takeExit
  rw [h, if_pos hfinished]

/-- Taking an exit leaves its place empty. -/
theorem exit?_takeExit (w : World) (fiber other : FiberId) :
    (w.takeExit fiber).2.store.exit? other =
      if other = fiber then none else w.store.exit? other := by
  cases h : w.store.exit? fiber with
  | some o =>
    rw [takeExit_of_some h, exit?_modifyFiber]
    split
    · cases w.store.fiber? fiber <;> rfl
    · rfl
  | none =>
    have hsame : (w.takeExit fiber).2 = w := by
      unfold Store.exit? at h
      unfold takeExit
      rw [h]
    rw [hsame]
    split
    · next heq => rw [heq, h]
    · rfl

/-- An exit is put back where there is none. -/
theorem exit?_restoreExit (w : World) (fiber other : FiberId) (o : Outcome) :
    (w.restoreExit fiber o).store.exit? other =
      if other = fiber then (w.store.fiber? fiber).bind fun r => r.exit.or (some o)
      else w.store.exit? other := exit?_modifyFiber w fiber other _

end World

end Fibers
