import Fibers.Proofs.Substitution

/-!
# The merge of an action with its clean-up

The exit of an action and the exit of its clean-up are merged by one rule, and the rule is lawful:
it does not matter in which order a chain of clean-ups is merged, a clean-up that succeeds changes
nothing, one that fails takes the place of a success and is recorded after a failure.  What records
nothing is left out of the causes that are added.  Whether a tree records nothing does not depend on
what its failures say, so failures can be transformed before or after the merge, also by code with
effects, which is run for the failures of the action first.

## Main definitions

* `Halt.mapM`, `Exit.mapErrorM` — transforming failures by code with effects.

## Main results

* `Halt.append_eq`, `Halt.append_assoc` — what is recorded after what.
* `Halt.append_mapM` — transforming failures with effects before or after.
* `Exit.withFinalizer_lawful` — **the merge is lawful.**
-/

namespace Fibers

theorem mapM_map_comp {m : Type → Type} [Monad m] [LawfulMonad m] {α β γ : Type} (f : α → m β)
    (g : β → γ) (as : List α) : (as.mapM fun a => g <$> f a) = List.map g <$> as.mapM f := by
  induction as with
  | nil => simp
  | cons a as ih => simp [ih]

namespace Cause

variable {ε ε' : Type}

/-- Whether a tree records nothing does not depend on what its failures say. -/
@[simp] theorem isEmpty_map (f : ε → ε') (c : Cause ε) : (c.map f).isEmpty = c.isEmpty := by
  rw [isEmpty, isEmpty, visited_eq_leaves, visited_eq_leaves, map, leaves_flatMap]
  cases c.leaves with
  | nil => rfl
  | cons l ls => cases l <;> rfl

/-- Whether a tree records nothing is not changed by failures in the places of its failures. -/
theorem isEmpty_graft {c : Cause ε} {errors : List ε'} (h : errors.length = c.failures.length) :
    (c.graft (errors.map .fail)).isEmpty = c.isEmpty := by
  rw [isEmpty, isEmpty, visited_eq_leaves, visited_eq_leaves, leaves_graft]
  rw [failures, visited_eq_leaves] at h
  cases hleaves : c.leaves with
  | nil => rfl
  | cons l ls =>
    cases l with
    | fail e =>
      rw [hleaves] at h
      cases errors with
      | nil => exact absurd h (by simp [Leaf.failure?])
      | cons error errors => rfl
    | die d => rfl
    | interrupt id => rfl

variable {m : Type → Type} [Monad m]

/-- Transforms every expected failure by code with effects. -/
def mapM (f : ε → m ε') (c : Cause ε) : m (Cause ε') := c.flatMapM fun e => fail <$> f e

variable [LawfulMonad m]

theorem mapM_eq (f : ε → m ε') (c : Cause ε) :
    c.mapM f = (fun errors => c.graft (errors.map fail)) <$> c.failures.mapM f := by
  rw [mapM, flatMapM_eq, mapM_map_comp, Functor.map_map]

/-- What is done with the result may ask the tree itself whether anything is recorded. -/
theorem bind_mapM_isEmpty {α : Type} {f : ε → m ε'} {c : Cause ε} {k k' : Cause ε' → m α}
    (h : ∀ c' : Cause ε', c'.isEmpty = c.isEmpty → k c' = k' c') :
    (c.mapM f >>= k) = (c.mapM f >>= k') := by
  simp only [mapM_eq, map_eq_pure_bind, bind_assoc, pure_bind]
  exact bind_mapM_congr fun errors herrors => h _ (isEmpty_graft herrors)

/-- Nothing is asked about the failures of a tree that records nothing. -/
theorem exists_mapM_of_isEmpty (f : ε → m ε') {c : Cause ε} (h : c.isEmpty = true) :
    ∃ c' : Cause ε', c'.isEmpty = true ∧ c.mapM f = pure c' := by
  have hnil : c.failures = [] := by
    rw [failures, visited_eq_leaves, Halt.leaves_eq_nil_of_isEmpty h]
    rfl
  refine ⟨c.graft (List.map fail ([] : List ε')), ?_, ?_⟩
  · rw [isEmpty_graft (by rw [hnil]; rfl), h]
  · rw [mapM_eq, hnil, List.mapM_nil, map_pure]

/-- Trees that record nothing are left out before or after. -/
theorem filter_mapM {α : Type} (f : ε → m ε') (cs : List (Cause ε))
    (k : List (Cause ε') → m α) :
    (cs.mapM (mapM f) >>= fun cs' => k (cs'.filter fun c => !c.isEmpty)) =
      ((cs.filter fun c => !c.isEmpty).mapM (mapM f) >>= k) := by
  induction cs generalizing k with
  | nil => simp
  | cons c cs ih =>
    simp only [List.mapM_cons, bind_assoc, pure_bind]
    cases hc : c.isEmpty with
    | true =>
      obtain ⟨c', hc', hmapM⟩ := exists_mapM_of_isEmpty f hc
      simp [hc, hmapM, hc', ih]
    | false =>
      simp only [hc, List.filter_cons, Bool.not_false, if_true, List.mapM_cons, bind_assoc, pure_bind]
      refine bind_mapM_isEmpty fun c' hc' => ?_
      simp only [hc', hc, Bool.not_false, if_true]
      exact ih fun cs' => k (c' :: cs')

end Cause

namespace Halt

variable {ε ε' : Type}

/-- What another failure has recorded comes after what has been recorded, without what records
nothing. -/
theorem append_eq (h g : Halt ε) :
    h.append g = ⟨h.cause, h.remaining ++ g.causes.filter fun c => !c.isEmpty⟩ := by
  unfold append withRemaining causes
  cases hc : g.cause.isEmpty <;> simp [hc]

theorem append_assoc (h g k : Halt ε) : (h.append g).append k = h.append (g.append k) := by
  simp only [append_eq, causes]
  cases hc : g.cause.isEmpty <;> simp [hc]

/-- Failures can be transformed before or after. -/
theorem map_append (f : ε → ε') (h g : Halt ε) :
    (h.append g).map f = (h.map f).append (g.map f) := by
  have hfilter : (g.causes.map (Cause.map f)).filter (fun c => !c.isEmpty) =
      (g.causes.filter fun c => !c.isEmpty).map (Cause.map f) := by
    simp [List.filter_map, Function.comp_def]
  have hcauses : (g.map f).causes = g.causes.map (Cause.map f) := rfl
  rw [append_eq, append_eq, hcauses, hfilter]
  exact congrArg (Halt.mk _) List.map_append

/-- One cause in sequence records what all of them have recorded. -/
theorem leaves_intoCause (h : Halt ε) : h.intoCause.leaves = h.leaves := by
  obtain ⟨cause, remaining⟩ := h
  simp only [intoCause, leaves, causes, List.flatMap_cons]
  induction remaining generalizing cause with
  | nil => simp
  | cons c cs ih => simp [ih]

variable {m : Type → Type} [Monad m]

/-- Transforms every expected failure by code with effects, the primary cause first. -/
def mapM (f : ε → m ε') (h : Halt ε) : m (Halt ε') := h.flatMapM fun e => Cause.fail <$> f e

/-- Failures can be transformed by code with effects before or after: it is run for the same failures
in the same order. -/
theorem append_mapM [LawfulMonad m] (f : ε → m ε') (h g : Halt ε) :
    (h.append g).mapM f = (do
      let h' ← h.mapM f
      let g' ← g.mapM f
      pure (h'.append g')) := by
  have hmapM : ∀ c : Cause ε, c.flatMapM (fun e => Cause.fail <$> f e) = c.mapM f := fun _ => rfl
  -- what the second failure has recorded, filtered after its failures have been transformed
  have hcauses : ∀ k : List (Cause ε') → m (Halt ε'),
      (do
        let c ← g.cause.mapM f
        let cs ← g.remaining.mapM (Cause.mapM f)
        k ((c :: cs).filter fun c => !c.isEmpty)) =
      (g.causes.filter fun c => !c.isEmpty).mapM (Cause.mapM f) >>= k := by
    intro k
    rw [← Cause.filter_mapM]
    simp [causes]
  simp only [append_eq, mapM, flatMapM, hmapM, List.mapM_append, bind_assoc, pure_bind, ← hcauses]
  rfl

end Halt

namespace Exit

variable {ε ε' α β γ : Type}

/-- Transforms every expected failure by code with effects. -/
def mapErrorM {m : Type → Type} [Monad m] (f : ε → m ε') : Exit ε α → m (Exit ε' α)
  | .done a => pure (.done a)
  | .halt h => .halt <$> h.mapM f

/-- Failures can be transformed by code with effects before or after the merge. -/
theorem withFinalizer_mapErrorM {m : Type → Type} [Monad m] [LawfulMonad m] (f : ε → m ε')
    (p : Exit ε α) (s : Exit ε β) :
    (p.withFinalizer s).mapErrorM f = (do
      let p' ← p.mapErrorM f
      let s' ← s.mapErrorM f
      pure (p'.withFinalizer s')) := by
  cases p <;> cases s <;> simp [mapErrorM, Halt.append_mapM]

theorem withFinalizer_mapError (f : ε → ε') (p : Exit ε α) (s : Exit ε β) :
    (p.withFinalizer s).mapError f = (p.mapError f).withFinalizer (s.mapError f) := by
  cases p <;> cases s <;> simp [mapError, Halt.map_append]

theorem withFinalizer_assoc (p : Exit ε α) (s : Exit ε β) (t : Exit ε γ) :
    (p.withFinalizer s).withFinalizer t = p.withFinalizer (s.withFinalizer t) := by
  cases p <;> cases s <;> cases t <;> simp [Halt.append_assoc]

theorem leaves_withFinalizer (p : Exit ε α) (s : Exit ε β) :
    (p.withFinalizer s).leaves = p.leaves ++ s.leaves := by
  cases p <;> cases s <;> simp [leaves]

/-- The primary cause is that of the action if the action has failed. -/
theorem cause?_withFinalizer (p : Exit ε α) (s : Exit ε β) :
    (p.withFinalizer s).cause? = p.cause?.or s.cause? := by
  cases p <;> cases s <;> simp [cause?, halt?, Halt.append_eq]

/-- **The merge of the exit of an action with that of its clean-up is lawful**, whatever the causes
look like.

* A chain of clean-ups may be merged from either end.
* A clean-up that succeeds changes nothing; one that fails takes the place of a success.
* A failure of the action keeps its primary cause, and everything that has been recorded is recorded
  after the merge: what the action has recorded, then what the clean-up has.  The same holds if all
  causes are put into one.
* Failures may be transformed before or after the merge, by code with effects as well. -/
theorem withFinalizer_lawful {m : Type → Type} [Monad m] [LawfulMonad m] (p : Exit ε α)
    (s : Exit ε β) (t : Exit ε γ) (a : α) (b : β) (h : Halt ε) (f : ε → ε') (k : ε → m ε') :
    (p.withFinalizer s).withFinalizer t = p.withFinalizer (s.withFinalizer t) ∧
    p.withFinalizer (.done b : Exit ε β) = p ∧
    (Exit.done a : Exit ε α).withFinalizer (.halt h : Exit ε β) = .halt h ∧
    ((Exit.halt h : Exit ε α).withFinalizer s).cause? = some h.cause ∧
    ((Exit.halt h : Exit ε α).withFinalizer s).leaves = h.leaves ++ s.leaves ∧
    (∀ g, p.withFinalizer s = .halt g → g.intoCause.leaves = p.leaves ++ s.leaves) ∧
    (p.withFinalizer s).mapError f = (p.mapError f).withFinalizer (s.mapError f) ∧
    (p.withFinalizer s).mapErrorM k = (do
      let p' ← p.mapErrorM k
      let s' ← s.mapErrorM k
      pure (p'.withFinalizer s')) := by
  refine ⟨withFinalizer_assoc p s t, withFinalizer_done p b, rfl, ?_, leaves_withFinalizer _ s,
    fun g hg => ?_, withFinalizer_mapError f p s, withFinalizer_mapErrorM k p s⟩
  · rw [cause?_withFinalizer]
    rfl
  · rw [Halt.leaves_intoCause, ← leaves_withFinalizer, hg]
    rfl

/-- An action has failed, and its clean-up as well: with a cause that records nothing and with one
that has an empty side.  Code that numbers the failures meets that of the action first. -/
theorem withFinalizer_lawful_numbered :
    let action : Exit Nat Unit := .halt ⟨.fail 10, [.empty]⟩
    let cleanup : Exit Nat Unit := .halt ⟨.seq .empty .empty, [.par .empty (.fail 20)]⟩
    let merged : Halt Nat := ⟨.fail 10, [.empty, .par .empty (.fail 20)]⟩
    let number : Nat → StateM Nat Nat := fun e => modifyGet fun n => (e + n, n + 1)
    action.withFinalizer cleanup = .halt merged ∧
      merged.intoCause.leaves = [.fail 10, .fail 20] ∧
      ((action.withFinalizer cleanup).mapErrorM number).run 1 =
        (.halt ⟨.fail 11, [.empty, .fail 22]⟩, 3) := by
  intro action cleanup merged number
  have hmerged : action.withFinalizer cleanup = .halt merged := by
    simp [action, cleanup, merged, Halt.append_eq, Halt.causes, Cause.isEmpty, Cause.leaves]
  have hnumbered : (Exit.halt ⟨.fail 11, [.empty]⟩ : Exit Nat Unit).withFinalizer
      (Exit.halt ⟨.empty, [.fail 22]⟩ : Exit Nat Unit) = .halt ⟨.fail 11, [.empty, .fail 22]⟩ := by
    simp [Halt.append_eq, Halt.causes, Cause.isEmpty, Cause.leaves]
  obtain ⟨-, -, -, -, -, hcause, -, hnumber⟩ := withFinalizer_lawful (m := StateM Nat) action cleanup
    cleanup () () merged id number
  refine ⟨hmerged, hcause merged hmerged, ?_⟩
  rw [hnumber]
  exact congrArg (·, 3) hnumbered

end Exit

end Fibers
