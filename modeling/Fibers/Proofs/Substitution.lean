import Fibers.Proofs.NormalForms

/-!
# Substitution for the failures of a cause

Putting a cause in the place of every expected failure is a substitution as it should be: it acts
leaf by leaf, substituting twice is substituting once by what the second substitution makes of the
first one, and a single failure is replaced by what is put in its place.  Code that answers with the
causes to be put in may have effects of its own.  It is run once for every failure, from left to
right, and what it has answered is then put in from left to right; nothing else of the tree matters
to it.

## Main definitions

* `Cause.graft` — puts causes in the places of the failures, from left to right.
* `Cause.spliced` — what becomes of a list of leaves by that.
* `Cause.Built` — what can be put together from single leaves.

## Main results

* `Cause.flatMapM_eq` — **code is run once for every failure, from left to right.**
* `Cause.built_iff` — the trees that can be put together are the normal ones.
* `Cause.flatMap_lawful` — **substitution for failures is lawful**, on any tree.
-/

namespace Fibers

/-- What is computed from the answers to a list of questions matters only for lists of as many
answers. -/
theorem bind_mapM_congr {m : Type → Type} [Monad m] [LawfulMonad m] {α β γ : Type} {f : α → m β}
    {as : List α} {k k' : List β → m γ} (h : ∀ bs, bs.length = as.length → k bs = k' bs) :
    (as.mapM f >>= k) = (as.mapM f >>= k') := by
  induction as generalizing k k' with
  | nil => simpa using h [] rfl
  | cons a as ih =>
    simp only [List.mapM_cons, bind_assoc, pure_bind]
    exact bind_congr fun b => ih fun bs hbs => h (b :: bs) (congrArg (· + 1) hbs)

namespace Cause

variable {ε ε' ε'' : Type}

/-! ### Substitution with effects -/

/-- Puts the given causes in the places of the expected failures, from left to right. -/
def graft : Cause ε → List (Cause ε') → Cause ε'
  | .empty, _ => .empty
  | .fail _, causes => causes.headD .empty
  | .die d, _ => .die d
  | .interrupt id, _ => .interrupt id
  | .seq left right, causes =>
    (left.graft (causes.take left.failures.length)).andThen
      (right.graft (causes.drop left.failures.length))
  | .par left right, causes =>
    (left.graft (causes.take left.failures.length)).alongside
      (right.graft (causes.drop left.failures.length))

theorem failures_seq (left right : Cause ε) :
    (seq left right).failures = left.failures ++ right.failures := by
  simp [failures, leaves]

theorem failures_par (left right : Cause ε) :
    (par left right).failures = left.failures ++ right.failures := by
  simp [failures, leaves]

/-- What is put in at a node comes from the answers to its left side and then from those to its
right side. -/
theorem bind_flatMapM_eq {m : Type → Type} [Monad m] [LawfulMonad m] {f : ε → m (Cause ε')}
    {left right : Cause ε} (node : Cause ε' → Cause ε' → Cause ε')
    (hleft : left.flatMapM f = left.graft <$> left.failures.mapM f)
    (hright : right.flatMapM f = right.graft <$> right.failures.mapM f) :
    (do
      let l ← left.flatMapM f
      let r ← right.flatMapM f
      pure (node l r)) =
      (fun causes => node (left.graft (causes.take left.failures.length))
        (right.graft (causes.drop left.failures.length))) <$>
        (left.failures ++ right.failures).mapM f := by
  rw [hleft, hright]
  simp only [List.mapM_append, map_eq_pure_bind, bind_assoc, pure_bind]
  refine bind_mapM_congr fun ls hls => ?_
  simp [← hls]

/-- **Code that answers with the causes to be put in is run once for every expected failure, from
left to right**, and its answers are put in from left to right. -/
theorem flatMapM_eq {m : Type → Type} [Monad m] [LawfulMonad m] (f : ε → m (Cause ε'))
    (c : Cause ε) : c.flatMapM f = c.graft <$> c.failures.mapM f := by
  induction c with
  | empty => simp [flatMapM, failures, leaves, graft]
  | fail e => simp [flatMapM, failures, leaves, Leaf.failure?, graft]
  | die d => simp [flatMapM, failures, leaves, List.filterMap_cons, Leaf.failure?, graft]
  | interrupt id => simp [flatMapM, failures, leaves, List.filterMap_cons, Leaf.failure?, graft]
  | seq left right ihl ihr =>
    rw [failures_seq]
    exact bind_flatMapM_eq andThen ihl ihr
  | par left right ihl ihr =>
    rw [failures_par]
    exact bind_flatMapM_eq alongside ihl ihr

/-- A list of leaves after the given causes have been put in the places of its expected failures,
from left to right. -/
def spliced : List (Leaf ε) → List (Cause ε') → List (Leaf ε')
  | [], _ => []
  | .fail _ :: leaves, causes => (causes.headD .empty).leaves ++ spliced leaves causes.tail
  | .die d :: leaves, causes => .die d :: spliced leaves causes
  | .interrupt id :: leaves, causes => .interrupt id :: spliced leaves causes

theorem spliced_append (ls rs : List (Leaf ε)) (causes : List (Cause ε')) :
    spliced (ls ++ rs) causes =
      spliced ls (causes.take (ls.filterMap Leaf.failure?).length) ++
        spliced rs (causes.drop (ls.filterMap Leaf.failure?).length) := by
  induction ls generalizing causes with
  | nil => simp [spliced]
  | cons l ls ih =>
    cases l with
    | fail e => cases causes <;> simp [spliced, Leaf.failure?, ih]
    | die d => simp [spliced, List.filterMap_cons, Leaf.failure?, ih]
    | interrupt id => simp [spliced, List.filterMap_cons, Leaf.failure?, ih]

/-- Causes that are put in replace the leaves of the expected failures. -/
theorem leaves_graft (c : Cause ε) (causes : List (Cause ε')) :
    (c.graft causes).leaves = spliced c.leaves causes := by
  induction c generalizing causes with
  | empty | die _ | interrupt _ => rfl
  | fail e => simp [graft, leaves, spliced]
  | seq left right ihl ihr => simp [graft, leaves, spliced_append, ihl, ihr, failures]
  | par left right ihl ihr => simp [graft, leaves, spliced_append, ihl, ihr, failures]

/-! ### Substitutions that change nothing -/

theorem map_id_eq (c : Cause ε) : c.map id = c.flatMap .fail := rfl

theorem map_id_map_id (c : Cause ε) : (c.map id).map id = c.map id := by
  rw [map_id_eq, map_id_eq, flatMap_flatMap]
  rfl

/-- What can be put together by the combinations of causes from single leaves, `empty` included. -/
inductive Built : Cause ε → Prop where
  | empty : Built .empty
  | fail (error : ε) : Built (.fail error)
  | die (defect : Defect) : Built (.die defect)
  | interrupt (source : FiberId) : Built (.interrupt source)
  | andThen {left right : Cause ε} : Built left → Built right → Built (left.andThen right)
  | alongside {left right : Cause ε} : Built left → Built right → Built (left.alongside right)

theorem IsNormal.built {c : Cause ε} (h : c.IsNormal) : c.Built := by
  induction c with
  | empty => exact .empty
  | fail e => exact .fail e
  | die d => exact .die d
  | interrupt id => exact .interrupt id
  | seq left right ihl ihr =>
    obtain ⟨⟨hleft, hl⟩, hright, hr⟩ := h
    exact andThen_eq hleft hright ▸ (ihl hl).andThen (ihr hr)
  | par left right ihl ihr =>
    obtain ⟨⟨hleft, hl⟩, hright, hr⟩ := h
    exact alongside_eq hleft hright ▸ (ihl hl).alongside (ihr hr)

/-- The trees that can be put together from single leaves are the normal ones. -/
theorem built_iff {c : Cause ε} : c.Built ↔ c.IsNormal := by
  refine ⟨fun h => ?_, IsNormal.built⟩
  induction h with
  | empty | fail _ | die _ | interrupt _ => exact trivial
  | andThen _ _ ihl ihr => exact ihl.andThen ihr
  | alongside _ _ ihl ihr => exact ihl.alongside ihr

/-- Dropping the expected failures keeps all other leaves in their order. -/
theorem leaves_stripFailures (c : Cause ε) :
    c.stripFailures.leaves = c.leaves.filter fun l => l.failure?.isNone := by
  rw [stripFailures, leaves_flatMap]
  induction c.leaves with
  | nil => rfl
  | cons l ls ih => cases l <;> simp [substituted, leaves, Leaf.failure?, ih]

/-- **Substitution for the expected failures is lawful**, on any tree.

* The leaves of the result are those of the tree, with the leaves of what is put in for a failure in
  the place of that failure.
* Code with effects is run once for every failure, from left to right; the leaves of what it has
  answered take the places of the failures in the same order.  Code without effects is the
  substitution itself.
* Substituting once more is substituting once by what becomes of the first substitution, and a
  single failure becomes what is put in for it.
* Passing on every failure as it is changes nothing the second time, and nothing at all exactly if
  no node has an empty side, which is to say that the tree can be put together from single leaves.
* Dropping the failures keeps the other leaves, in their order. -/
theorem flatMap_lawful {m : Type → Type} [Monad m] [LawfulMonad m] (c : Cause ε)
    (f : ε → Cause ε') (g : ε' → Cause ε'') (k : ε → m (Cause ε')) (e : ε) :
    (c.flatMap f).leaves = c.leaves.flatMap (substituted f) ∧
    c.flatMapM k = c.graft <$> c.failures.mapM k ∧
    (∀ causes : List (Cause ε'), (c.graft causes).leaves = spliced c.leaves causes) ∧
    c.flatMapM (fun e => (pure (f e) : m (Cause ε'))) = pure (c.flatMap f) ∧
    (c.flatMap f).flatMap g = (c.flatMap fun e => (f e).flatMap g) ∧
    (fail e).flatMap f = f e ∧
    (c.map id).map id = c.map id ∧
    (c.map id = c ↔ c.IsNormal) ∧
    (c.Built ↔ c.IsNormal) ∧
    c.stripFailures.leaves = c.leaves.filter fun l => l.failure?.isNone :=
  ⟨leaves_flatMap f c, flatMapM_eq k c, leaves_graft c, flatMapM_pure f c, flatMap_flatMap f g c,
    rfl, map_id_map_id c, flatMap_fail_eq_iff, built_iff, leaves_stripFailures c⟩

/-- A substitution that counts how often it has been asked, and puts in the number of the question
for every other failure. -/
def numbered (e : Nat) : StateM Nat (Cause Nat) :=
  modifyGet fun n => (if n % 2 = 0 then .fail (e + n) else .seq .empty .empty, n + 1)

/-- It is asked three times by a tree with three failures, and the second question is that of the
second failure from the left. -/
theorem flatMap_lawful_numbered :
    ((seq (par (fail 10) .empty) (seq (par (fail 20) (interrupt ⟨1⟩)) (fail 30))).flatMapM
      numbered).run 0 =
      (seq (fail 10) (seq (par (seq .empty .empty) (interrupt ⟨1⟩)) (fail 32)), 3) := by
  rw [(flatMap_lawful (m := StateM Nat)
    (seq (par (fail 10) .empty) (seq (par (fail 20) (interrupt ⟨1⟩)) (fail 30)))
    (fun e => fail e) (fun e : Nat => fail e) numbered 0).2.1]
  simp only [failures, visited_eq_leaves, graft]
  rfl

end Cause

end Fibers
