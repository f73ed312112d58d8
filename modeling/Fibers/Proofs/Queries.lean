import Mathlib.Data.List.Nodup
import Fibers.Failure.Cause

/-!
# What the queries of a cause mean

A query keeps the trees still to be visited on a list of its own and takes the first one off in
every round.  What it meets are the nodes of the tree in the order of recursion, one in each round,
so it ends after as many rounds as there are nodes, and has seen every leaf once, from left to right.
The answers are therefore those that the leaves give when read from left to right.

## Main definitions

* `Cause.nodes`, `Cause.tips` — the nodes and the leaves of a tree, by recursion.
* `Cause.Within` — one tree is a part of another one.

## Main results

* `Cause.walk_eq` — **a walk meets the nodes in the order of recursion.**
* `Cause.failureOrCause_eq` — a program recovers with the leftmost failure.
* `Cause.contains_iff` — what it means that a cause contains another one.
* `Cause.queries_meaning` — **all queries say what the leaves say.**
-/

namespace Fibers

theorem nodup_eraseDups {α : Type} [DecidableEq α] (as : List α) : as.eraseDups.Nodup := by
  match as with
  | [] => exact List.nodup_nil
  | a :: as =>
    rw [List.eraseDups_cons, List.nodup_cons]
    have hrest := nodup_eraseDups (as.filter fun b => !b == a)
    exact ⟨by simp, hrest⟩
termination_by as.length
decreasing_by exact Nat.lt_succ_of_le (List.length_filter_le ..)

namespace FiberId

theorem mem_sortDistinct {ids : List FiberId} {id : FiberId} : id ∈ sortDistinct ids ↔ id ∈ ids := by
  simp [sortDistinct, sort]

/-- Every fiber is listed once, and those created earlier come first. -/
theorem pairwise_sortDistinct (ids : List FiberId) :
    (sortDistinct ids).Pairwise fun a b => a.raw < b.raw := by
  have hsorted : (sortDistinct ids).Pairwise fun a b => decide (a.raw ≤ b.raw) = true :=
    List.pairwise_mergeSort (by simp only [decide_eq_true_eq]; omega)
      (by simp only [Bool.or_eq_true, decide_eq_true_eq]; omega) _
  have hnodup : (sortDistinct ids).Nodup := List.nodup_mergeSort.mpr (nodup_eraseDups ids)
  refine (hsorted.and hnodup).imp ?_
  rintro ⟨a⟩ ⟨b⟩ ⟨hle, hne⟩
  exact Nat.lt_of_le_of_ne (of_decide_eq_true hle) fun h => hne (congrArg FiberId.mk h)

end FiberId

theorem Leaf.isInterrupt_iff {ε : Type} {l : Leaf ε} :
    l.isInterrupt = true ↔ ∃ id, l = .interrupt id := by
  cases l <;> simp [isInterrupt, interruptor?]

namespace Cause

variable {ε : Type}

/-! ### The nodes of a tree -/

/-- The nodes of a tree: a node, then those of its left side, then those of its right side. -/
def nodes : Cause ε → List (Cause ε)
  | .seq left right => .seq left right :: (left.nodes ++ right.nodes)
  | .par left right => .par left right :: (left.nodes ++ right.nodes)
  | leaf => [leaf]

/-- The leaves of a tree from left to right, those that record nothing included. -/
def tips : Cause ε → List (Cause ε)
  | .seq left right => left.tips ++ right.tips
  | .par left right => left.tips ++ right.tips
  | leaf => [leaf]

/-- Whether a node has no sides. -/
def isTip : Cause ε → Bool
  | .seq _ _ => false
  | .par _ _ => false
  | _ => true

theorem length_nodes (c : Cause ε) : c.nodes.length = c.nodeCount := by
  induction c with
  | seq left right ihl ihr => simp [nodes, nodeCount, ihl, ihr]
  | par left right ihl ihr => simp [nodes, nodeCount, ihl, ihr]
  | empty | fail _ | die _ | interrupt _ => rfl

theorem filter_isTip_nodes (c : Cause ε) : c.nodes.filter isTip = c.tips := by
  induction c with
  | seq left right ihl ihr => simp [nodes, tips, isTip, ihl, ihr]
  | par left right ihl ihr => simp [nodes, tips, isTip, ihl, ihr]
  | empty | fail _ | die _ | interrupt _ => rfl

theorem filterMap_leaf?_tips (c : Cause ε) : c.tips.filterMap leaf? = c.leaves := by
  induction c with
  | seq left right ihl ihr => simp [tips, leaves, ihl, ihr]
  | par left right ihl ihr => simp [tips, leaves, ihl, ihr]
  | empty | fail _ | die _ | interrupt _ => rfl

/-- **A walk meets the nodes of the trees it has to visit, tree by tree and each in the order of
recursion.** -/
theorem walk_eq (pending : List (Cause ε)) : walk pending = pending.flatMap nodes := by
  fun_induction walk pending with
  | case1 => rfl
  | case2 left right rest ih => simp [nodes, ih]
  | case3 left right rest ih => simp [nodes, ih]
  | case4 node rest hseq hpar ih =>
    cases node with
    | seq left right => exact absurd rfl (hseq left right)
    | par left right => exact absurd rfl (hpar left right)
    | _ => simp [nodes, ih]

theorem walk_singleton (c : Cause ε) : walk [c] = c.nodes := by simp [walk_eq]

/-! ### What the queries answer -/

theorem mem_interruptors {c : Cause ε} {id : FiberId} :
    id ∈ c.interruptors ↔ .interrupt id ∈ c.leaves := by
  rw [interruptors, visited_eq_leaves, FiberId.mem_sortDistinct, List.mem_filterMap]
  constructor
  · rintro ⟨l, hl, hid⟩
    cases l with
    | fail e => exact absurd hid (Option.some_ne_none id).symm
    | die d => exact absurd hid (Option.some_ne_none id).symm
    | interrupt source => exact Option.some.inj hid ▸ hl
  · exact fun h => ⟨_, h, rfl⟩

theorem isEmpty_iff {c : Cause ε} : c.isEmpty = true ↔ c.leaves = [] := by simp [isEmpty]

theorem isInterrupted_iff {c : Cause ε} :
    c.isInterrupted = true ↔ ∃ id, .interrupt id ∈ c.leaves := by
  simp only [isInterrupted, visited_eq_leaves, List.any_eq_true, Leaf.isInterrupt_iff]
  constructor
  · rintro ⟨_, hmem, id, rfl⟩
    exact ⟨id, hmem⟩
  · exact fun ⟨id, hmem⟩ => ⟨_, hmem, id, rfl⟩

theorem isInterruptedOnly_iff {c : Cause ε} :
    c.isInterruptedOnly = true ↔
      (∃ id, .interrupt id ∈ c.leaves) ∧ ∀ l ∈ c.leaves, ∃ id, l = .interrupt id := by
  rw [isInterruptedOnly, Bool.and_eq_true, ← isInterrupted, isInterrupted_iff, visited_eq_leaves,
    List.all_eq_true]
  simp only [Leaf.isInterrupt_iff]

/-- The first failure met on the way through a tree is the leftmost one. -/
theorem seekFailure_singleton (c : Cause ε) : seekFailure [c] = c.firstFailure := by
  rw [firstFailure, failures, visited, List.filterMap_filterMap, List.head?_filterMap, seekFailure]

/-- A program recovers with the leftmost failure; without one the cause stays as it is. -/
theorem failureOrCause_eq (c : Cause ε) :
    c.failureOrCause = match c.firstFailure with
      | some e => .ok e
      | none => .error c := by
  rw [failureOrCause, isFailure, seekFailure_singleton]
  cases c.firstFailure <;> rfl

/-! ### Parts of a tree -/

/-- `o.Within c` says that `o` is `c` or a part of it. -/
inductive Within (o : Cause ε) : Cause ε → Prop where
  | refl : Within o o
  | seqLeft {left right : Cause ε} : Within o left → Within o (.seq left right)
  | seqRight {left right : Cause ε} : Within o right → Within o (.seq left right)
  | parLeft {left right : Cause ε} : Within o left → Within o (.par left right)
  | parRight {left right : Cause ε} : Within o right → Within o (.par left right)

theorem mem_nodes_self (c : Cause ε) : c ∈ c.nodes := by cases c <;> simp [nodes]

/-- The parts of a tree are its nodes. -/
theorem mem_nodes_iff {c o : Cause ε} : o ∈ c.nodes ↔ o.Within c := by
  constructor
  · intro h
    induction c with
    | empty | fail _ | die _ | interrupt _ => exact List.mem_singleton.mp h ▸ .refl
    | seq left right ihl ihr =>
      rcases List.mem_cons.mp h with rfl | h
      · exact .refl
      · exact (List.mem_append.mp h).elim (fun h => .seqLeft (ihl h)) fun h => .seqRight (ihr h)
    | par left right ihl ihr =>
      rcases List.mem_cons.mp h with rfl | h
      · exact .refl
      · exact (List.mem_append.mp h).elim (fun h => .parLeft (ihl h)) fun h => .parRight (ihr h)
  · intro h
    induction h with
    | refl => exact mem_nodes_self o
    | seqLeft _ ih | parLeft _ ih => exact List.mem_cons_of_mem _ (List.mem_append_left _ ih)
    | seqRight _ ih | parRight _ ih => exact List.mem_cons_of_mem _ (List.mem_append_right _ ih)

theorem Within.trans {c o q : Cause ε} (hqo : q.Within o) (hoc : o.Within c) : q.Within c := by
  induction hoc with
  | refl => exact hqo
  | seqLeft _ ih => exact .seqLeft ih
  | seqRight _ ih => exact .seqRight ih
  | parLeft _ ih => exact .parLeft ih
  | parRight _ ih => exact .parRight ih

/-- The leaves of a part are some of those of the tree, next to each other. -/
theorem Within.leaves_infix {c o : Cause ε} (h : o.Within c) : o.leaves <:+: c.leaves := by
  induction h with
  | refl => exact List.infix_rfl
  | seqLeft _ ih | parLeft _ ih => exact ih.trans (List.prefix_append ..).isInfix
  | seqRight _ ih | parRight _ ih => exact ih.trans (List.suffix_append ..).isInfix

/-- **A cause contains those that record nothing, and its parts.** -/
theorem contains_iff [DecidableEq ε] {c o : Cause ε} :
    c.contains o = true ↔ o.leaves = [] ∨ o.Within c := by
  rw [contains, Bool.or_eq_true, isEmpty_iff, List.contains_iff_mem, walk_singleton, mem_nodes_iff]

/-- The leaves of a cause that is contained are next to each other. -/
theorem leaves_infix_of_contains [DecidableEq ε] {c o : Cause ε} (h : c.contains o = true) :
    o.leaves <:+: c.leaves := by
  rcases contains_iff.mp h with hnil | hwithin
  · exact hnil ▸ List.nil_infix
  · exact hwithin.leaves_infix

theorem contains_trans [DecidableEq ε] {c o q : Cause ε} (hco : c.contains o = true)
    (hoq : o.contains q = true) : c.contains q = true := by
  rw [contains_iff] at hco hoq ⊢
  rcases hoq with hq | hqo
  · exact .inl hq
  rcases hco with ho | hoc
  · -- what is part of a tree that records nothing records nothing
    exact .inl (List.eq_nil_of_infix_nil (ho ▸ hqo.leaves_infix))
  · exact .inr (hqo.trans hoc)

/-- **All queries say what the leaves say**, read from left to right.

* A walk meets every node once, the leaves from left to right, and ends after as many rounds as there
  are nodes.
* The number of leaves, the failures, the defects and whether anything is recorded are read off the
  leaves; the fibers that have asked for a cancellation are each listed once, in the order of their
  creation.
* Only cancellations are recorded if there is one and there is no other leaf.
* A program recovers with the leftmost failure, which is found on the way through the tree if the
  tree is known to have one; without one the cause stays as it is.
* What a cause contains are the causes that record nothing, and its parts.  It contains itself and
  whatever is contained in what it contains, whose failures and defects are among its own without a
  gap. -/
theorem queries_meaning [DecidableEq ε] (c o q : Cause ε) :
    (walk [c] = c.nodes ∧ (walk [c]).length = c.nodeCount ∧
      (walk [c]).filter isTip = c.tips ∧ c.tips.filterMap leaf? = c.leaves) ∧
    (c.size = c.leaves.length ∧
      c.failures = c.leaves.filterMap Leaf.failure? ∧
      c.defects = c.leaves.filterMap Leaf.defect? ∧
      (∀ id, id ∈ c.interruptors ↔ .interrupt id ∈ c.leaves) ∧
      c.interruptors.Pairwise (fun a b => a.raw < b.raw) ∧
      (c.isEmpty = true ↔ c.leaves = []) ∧
      (c.isInterrupted = true ↔ ∃ id, .interrupt id ∈ c.leaves) ∧
      (c.isInterruptedOnly = true ↔
        (∃ id, .interrupt id ∈ c.leaves) ∧ ∀ l ∈ c.leaves, ∃ id, l = .interrupt id)) ∧
    (c.firstFailure = (c.leaves.filterMap Leaf.failure?).head? ∧
      seekFailure [c] = c.firstFailure ∧
      c.failureOrCause = match c.firstFailure with
        | some e => .ok e
        | none => .error c) ∧
    (c.contains o = true ↔ o.leaves = [] ∨ o.Within c) ∧
    c.contains c = true ∧
    (c.contains o = true → o.contains q = true → c.contains q = true) ∧
    (c.contains o = true → o.failures <:+: c.failures ∧ o.defects <:+: c.defects) := by
  refine ⟨⟨walk_singleton c, ?_, ?_, filterMap_leaf?_tips c⟩, ⟨?_, ?_, ?_, fun _ => mem_interruptors,
    FiberId.pairwise_sortDistinct _, isEmpty_iff, isInterrupted_iff, isInterruptedOnly_iff⟩,
    ⟨?_, seekFailure_singleton c, failureOrCause_eq c⟩, contains_iff, contains_iff.mpr (.inr .refl),
    contains_trans, fun h => ?_⟩
  · rw [walk_singleton, length_nodes]
  · rw [walk_singleton, filter_isTip_nodes]
  · rw [size, visited_eq_leaves]
  · rw [failures, visited_eq_leaves]
  · rw [defects, visited_eq_leaves]
  · rw [firstFailure, failures, visited_eq_leaves]
  · have hleaves := leaves_infix_of_contains h
    simp only [failures, defects, visited_eq_leaves]
    exact ⟨hleaves.filterMap _, hleaves.filterMap _⟩

/-- A cancelled computation whose clean-up has failed twice contains what its clean-up has done, and
the second failure of it. -/
theorem queries_meaning_cleanup :
    (seq (interrupt ⟨3⟩) (par .empty (seq (fail 1) (fail 2)))).contains (seq (fail 1) (fail 2)) =
        true ∧
      (seq (fail 1) (fail 2)).contains (fail 2) = true ∧
      (seq (interrupt ⟨3⟩) (par .empty (seq (fail 1) (fail 2)))).contains (fail 2) = true := by
  have hclean : (seq (interrupt ⟨3⟩) (par .empty (seq (fail 1) (fail 2)))).contains
      (seq (fail 1) (fail 2)) = true := contains_iff.mpr (.inr (.seqRight (.parRight .refl)))
  have hsecond : (seq (fail 1) (fail 2)).contains (fail 2) = true :=
    contains_iff.mpr (.inr (.seqRight .refl))
  exact ⟨hclean, hsecond, (queries_meaning _ _ (fail 2)).2.2.2.2.2.1 hclean hsecond⟩

end Cause

end Fibers
