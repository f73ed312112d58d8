import Fibers.Proofs.Shelf

/-!
# Causes without empty sides

`Cause.empty` records nothing, and the combinations of causes leave it out.  A tree is normal if no
node of it has an empty side: everything is normal that has been put together with the combinations
from single leaves, and whatever comes out of a substitution by normal trees.  Handing on every
expected failure as it is leaves exactly these trees as they are, so a failure that is put into the
interpreter and taken out again is the same if it is normal.

## Main definitions

* `Cause.IsNormal`, `Halt.IsNormal`, `Exit.IsNormal` — no node has an empty side.

## Main results

* `Cause.isNormal_flatMap` — what comes out of a substitution is normal.
* `Cause.flatMap_fail_eq_iff` — **a tree is kept as it is exactly if it is normal.**
* `Halt.IsNormal.untag_tag` — a normal failure that has been tagged is seen at its type as it was.
-/

namespace Fibers

namespace Cause

variable {ε ε' : Type} {left right : Cause ε}

/-- No node of the tree has an empty side. -/
def IsNormal : Cause ε → Prop
  | .seq left right => (left ≠ .empty ∧ left.IsNormal) ∧ right ≠ .empty ∧ right.IsNormal
  | .par left right => (left ≠ .empty ∧ left.IsNormal) ∧ right ≠ .empty ∧ right.IsNormal
  | .empty | .fail _ | .die _ | .interrupt _ => True

theorem andThen_eq (hleft : left ≠ .empty) (hright : right ≠ .empty) :
    left.andThen right = .seq left right := by
  cases left <;> cases right <;> first | rfl | exact absurd rfl hleft | exact absurd rfl hright

theorem alongside_eq (hleft : left ≠ .empty) (hright : right ≠ .empty) :
    left.alongside right = .par left right := by
  cases left <;> cases right <;> first | rfl | exact absurd rfl hleft | exact absurd rfl hright

theorem IsNormal.andThen (hl : left.IsNormal) (hr : right.IsNormal) :
    (left.andThen right).IsNormal := by
  by_cases hleft : left = .empty
  · rw [hleft]
    exact hr
  by_cases hright : right = .empty
  · rw [hright, andThen_empty]
    exact hl
  rw [andThen_eq hleft hright]
  exact ⟨⟨hleft, hl⟩, hright, hr⟩

theorem IsNormal.alongside (hl : left.IsNormal) (hr : right.IsNormal) :
    (left.alongside right).IsNormal := by
  by_cases hleft : left = .empty
  · rw [hleft]
    exact hr
  by_cases hright : right = .empty
  · rw [hright, alongside_empty]
    exact hl
  rw [alongside_eq hleft hright]
  exact ⟨⟨hleft, hl⟩, hright, hr⟩

/-- **What comes out of a substitution is normal**, if what is put in is. -/
theorem isNormal_flatMap {f : ε → Cause ε'} (hf : ∀ e, (f e).IsNormal) (c : Cause ε) :
    (c.flatMap f).IsNormal := by
  induction c with
  | empty | die _ | interrupt _ => exact trivial
  | fail e => exact hf e
  | seq left right ihl ihr => exact ihl.andThen ihr
  | par left right ihl ihr => exact ihl.alongside ihr

/-- A substitution that changes nothing keeps a normal tree. -/
theorem IsNormal.flatMap_fail {c : Cause ε} (h : c.IsNormal) : c.flatMap .fail = c := by
  induction c with
  | empty | fail _ | die _ | interrupt _ => rfl
  | seq left right ihl ihr =>
    obtain ⟨⟨hleft, hl⟩, hright, hr⟩ := h
    rw [flatMap, ihl hl, ihr hr, andThen_eq hleft hright]
  | par left right ihl ihr =>
    obtain ⟨⟨hleft, hl⟩, hright, hr⟩ := h
    rw [flatMap, ihl hl, ihr hr, alongside_eq hleft hright]

/-- **A tree is kept as it is exactly if it is normal.** -/
theorem flatMap_fail_eq_iff {c : Cause ε} : c.flatMap .fail = c ↔ c.IsNormal :=
  ⟨fun h => h ▸ isNormal_flatMap (f := .fail) (fun _ => trivial) c, IsNormal.flatMap_fail⟩

end Cause

namespace Halt

variable {ε : Type} {h g : Halt ε}

/-- No cause has a node with an empty side. -/
def IsNormal (h : Halt ε) : Prop := ∀ c ∈ h.causes, c.IsNormal

/-- What is seen at a type is normal. -/
theorem isNormal_untag (type : ErrorType) (h : Halt Failure) : (h.untag type).IsNormal := by
  have hfailure : ∀ e : Failure, (if e.type = type then Cause.fail e.value
      else .die (.mismatch "failure" type.name)).IsNormal := by
    intro e
    split <;> exact trivial
  intro c hc
  rcases List.mem_cons.mp hc with rfl | hc
  · exact Cause.isNormal_flatMap hfailure _
  · obtain ⟨c, -, rfl⟩ := List.mem_map.mp hc
    exact Cause.isNormal_flatMap hfailure c

/-- **A normal failure that has been tagged is seen at its type as it was.** -/
theorem IsNormal.untag_tag {h : Halt Value} (hnormal : h.IsNormal) (type : ErrorType) :
    (h.tag type).untag type = h := by
  rw [untag_tag_eq]
  obtain ⟨cause, remaining⟩ := h
  obtain ⟨hcause, hremaining⟩ := List.forall_mem_cons.mp hnormal
  have hall : remaining.map (·.flatMap .fail) = remaining :=
    (List.map_congr_left fun c hc => (hremaining c hc).flatMap_fail).trans (List.map_id _)
  rw [flatMap, hcause.flatMap_fail, hall]

theorem IsNormal.withRemaining (hh : h.IsNormal) {c : Cause ε} (hc : c.IsNormal) :
    (h.withRemaining c).IsNormal := by
  unfold Halt.withRemaining
  split
  · exact hh
  · intro c' hc'
    rcases List.mem_append.mp (List.cons_append .. ▸ hc' : c' ∈ h.causes ++ [c]) with hold | hnew
    · exact hh c' hold
    · exact List.mem_singleton.mp hnew ▸ hc

/-- A normal failure with another one alongside is normal. -/
theorem IsNormal.append (hh : h.IsNormal) (hg : g.IsNormal) : (h.append g).IsNormal := by
  have hjoined := hh.withRemaining (hg g.cause List.mem_cons_self)
  intro c hc
  rcases List.mem_append.mp (List.cons_append .. ▸ hc : c ∈ (h.withRemaining g.cause).causes ++
    g.remaining.filter fun c => !c.isEmpty) with hold | hnew
  · exact hjoined c hold
  · exact hg c (List.mem_cons_of_mem _ (List.mem_of_mem_filter hnew))

theorem IsNormal.foldl_append {hs : List (Halt ε)} (hh : h.IsNormal)
    (hhs : ∀ g ∈ hs, g.IsNormal) : (hs.foldl Halt.append h).IsNormal := by
  induction hs generalizing h with
  | nil => exact hh
  | cons g hs ih =>
    obtain ⟨hg, hrest⟩ := List.forall_mem_cons.mp hhs
    exact ih (hh.append hg) hrest

end Halt

namespace Exit

/-- What has been failed with is normal. -/
def IsNormal (x : Exit Value Value) : Prop := ∀ h, x = .halt h → h.IsNormal

/-- An exit that is seen at a type is normal. -/
theorem isNormal_untag (type : ErrorType) (o : Outcome) : (o.untag type).IsNormal := by
  intro h hh
  obtain ⟨g, -, rfl⟩ := untag_eq_halt_iff.mp hh
  exact g.isNormal_untag type

/-- A normal exit that has been tagged is seen at its type as it was. -/
theorem IsNormal.untag_tag {x : Exit Value Value} (hnormal : x.IsNormal) (type : ErrorType) :
    (x.tag type).untag type = x := by
  cases x with
  | done v => rfl
  | halt h => exact congrArg Exit.halt ((hnormal h rfl).untag_tag type)

end Exit

end Fibers
