import Mathlib.Data.List.Forall2
import Fibers.Proofs.Iteration

/-!
# Failures that are replaced leaf by leaf

Whatever the interpreter makes of a failure while it unwinds, it puts a leaf in the place of each
expected failure, and leaves everything else where it is.  So the leaves of every cause before and
after correspond to each other in their order, and the causes do as well.

## Main definitions

* `Leaf.Becomes` — a leaf that takes the place of another one.
* `Cause.Leafwise`, `Halt.Leafwise` — leaves that correspond to each other in their order.
* `Failure.Translates` — what a mapping of failures puts in the place of one.

## Main results

* `Cause.leafwise_flatMap`, `Cause.leafwise_flatMapM` — a substitution of single leaves.
* `Halt.Leafwise.comp` — one substitution after the other.
* `Halt.leafwise_discard`, `Halt.leafwise_translate` — **no leaf is lost by dropping the types of
  failures, or by mapping them.**
-/

namespace Fibers

/-! ### Members of two lists, one by one -/

section Members

variable {α β γ : Type} {R : α → β → Prop}

theorem forall₂_comp {Q : β → γ → Prop} {as : List α} {bs : List β} {cs : List γ}
    (h : List.Forall₂ R as bs) (h' : List.Forall₂ Q bs cs) :
    List.Forall₂ (fun a c => ∃ b, R a b ∧ Q b c) as cs := by
  induction h generalizing cs with
  | nil =>
    cases h'
    exact .nil
  | cons hhead _ ih =>
    cases h' with
    | cons hhead' htail' => exact .cons ⟨_, hhead, hhead'⟩ (ih htail')

theorem exists_forall₂_append {as as' : List α} {bs : List β}
    (h : List.Forall₂ R (as ++ as') bs) :
    ∃ cs cs', bs = cs ++ cs' ∧ List.Forall₂ R as cs ∧ List.Forall₂ R as' cs' := by
  induction as generalizing bs with
  | nil => exact ⟨[], bs, rfl, .nil, h⟩
  | cons a as ih =>
    cases h with
    | cons hhead htail =>
      obtain ⟨cs, cs', rfl, hcs, hcs'⟩ := ih htail
      exact ⟨_ :: cs, cs', rfl, .cons hhead hcs, hcs'⟩

theorem any_eq_of_forall₂ {p : α → Bool} {q : β → Bool} (hR : ∀ a b, R a b → q b = p a)
    {as : List α} {bs : List β} (h : List.Forall₂ R as bs) : bs.any q = as.any p := by
  induction h with
  | nil => rfl
  | cons hhead _ ih => rw [List.any_cons, List.any_cons, hR _ _ hhead, ih]

end Members

/-! ### Leaves that are replaced one by one -/

/-- `l.Becomes R l'` says that a leaf is replaced by another one: an expected failure as `R` says,
while defects and cancellations stay. -/
inductive Leaf.Becomes {ε ε' : Type} (R : ε → Leaf ε' → Prop) : Leaf ε → Leaf ε' → Prop where
  | fail {e : ε} {l : Leaf ε'} : R e l → Becomes R (.fail e) l
  | die (d : Defect) : Becomes R (.die d) (.die d)
  | interrupt (source : FiberId) : Becomes R (.interrupt source) (.interrupt source)

/-- A leaf may stay if expected failures may. -/
theorem Leaf.becomes_refl {ε : Type} {F : ε → Leaf ε → Prop} (hF : ∀ e, F e (.fail e))
    (l : Leaf ε) : l.Becomes F l := by
  cases l with
  | fail e => exact .fail (hF e)
  | die d => exact .die d
  | interrupt source => exact .interrupt source

/-- The leaves of two causes correspond to each other as `R` says, in the same order. -/
def Cause.Leafwise {ε ε' : Type} (R : Leaf ε → Leaf ε' → Prop) (c : Cause ε) (c' : Cause ε') :
    Prop :=
  List.Forall₂ R c.leaves c'.leaves

/-- The causes of two failures correspond to each other in the same order, leaf by leaf. -/
structure Halt.Leafwise {ε ε' : Type} (R : Leaf ε → Leaf ε' → Prop) (h : Halt ε) (h' : Halt ε') :
    Prop where
  cause : h.cause.Leafwise R h'.cause
  remaining : List.Forall₂ (Cause.Leafwise R) h.remaining h'.remaining

section Leafwise

variable {ε ε' ε'' : Type} {R : Leaf ε → Leaf ε' → Prop} {F : ε → Leaf ε' → Prop}

/-- Replacing each failure by one leaf replaces the leaves one by one. -/
theorem Cause.leafwise_flatMap {f : ε → Cause ε'} {c : Cause ε}
    (hf : ∀ e, .fail e ∈ c.leaves → ∃ l, (f e).leaves = [l] ∧ F e l) :
    c.Leafwise (Leaf.Becomes F) (c.flatMap f) := by
  induction c with
  | empty => exact .nil
  | fail e =>
    obtain ⟨l, hl, hF⟩ := hf e List.mem_cons_self
    rw [Leafwise, flatMap, hl]
    exact .cons (.fail hF) .nil
  | die d => exact .cons (.die d) .nil
  | interrupt source => exact .cons (.interrupt source) .nil
  | seq left right ihl ihr =>
    rw [Leafwise, flatMap, leaves_andThen]
    exact List.rel_append (ihl fun e he => hf e (List.mem_append_left _ he))
      (ihr fun e he => hf e (List.mem_append_right _ he))
  | par left right ihl ihr =>
    rw [Leafwise, flatMap, leaves_alongside]
    exact List.rel_append (ihl fun e he => hf e (List.mem_append_left _ he))
      (ihr fun e he => hf e (List.mem_append_right _ he))

/-- The same for code that replaces failures, if it does not panic. -/
theorem Cause.leafwise_flatMapM {f : ε → Action (Cause ε')}
    (hf : ∀ {e w c w'}, (f e).run w = (.ok c, w') → ∃ l, c.leaves = [l] ∧ F e l) {c : Cause ε}
    {w w' : World} {c' : Cause ε'} (h : (c.flatMapM f).run w = (.ok c', w')) :
    c.Leafwise (Leaf.Becomes F) c' := by
  induction c generalizing w w' c' with
  | fail e =>
    obtain ⟨l, hl, hF⟩ := hf h
    rw [Leafwise, hl]
    exact .cons (.fail hF) .nil
  | empty =>
    cases h
    exact .nil
  | die d =>
    cases h
    exact .cons (.die d) .nil
  | interrupt source =>
    cases h
    exact .cons (.interrupt source) .nil
  | seq left right ihl ihr =>
    obtain ⟨l, w₁, hl, h⟩ := Action.run_bind_ok h
    obtain ⟨r, w₂, hr, h⟩ := Action.run_bind_ok h
    cases h
    rw [Leafwise, leaves_andThen]
    exact List.rel_append (ihl hl) (ihr hr)
  | par left right ihl ihr =>
    obtain ⟨l, w₁, hl, h⟩ := Action.run_bind_ok h
    obtain ⟨r, w₂, hr, h⟩ := Action.run_bind_ok h
    cases h
    rw [Leafwise, leaves_alongside]
    exact List.rel_append (ihl hl) (ihr hr)

theorem Cause.leafwise_mapM {f : ε → Action (Cause ε')}
    (hf : ∀ {e w c w'}, (f e).run w = (.ok c, w') → ∃ l, c.leaves = [l] ∧ F e l)
    {cs : List (Cause ε)} {w w' : World} {cs' : List (Cause ε')}
    (h : (cs.mapM (Cause.flatMapM f)).run w = (.ok cs', w')) :
    List.Forall₂ (Cause.Leafwise (Leaf.Becomes F)) cs cs' := by
  induction cs generalizing w w' cs' with
  | nil =>
    rw [List.mapM_nil] at h
    cases h
    exact .nil
  | cons c cs ih =>
    rw [List.mapM_cons] at h
    obtain ⟨c', w₁, hc, h⟩ := Action.run_bind_ok h
    obtain ⟨cs', w₂, hcs, h⟩ := Action.run_bind_ok h
    cases h
    exact .cons (leafwise_flatMapM hf hc) (ih hcs)

namespace Halt

theorem leafwise_refl {R : Leaf ε → Leaf ε → Prop} (hR : ∀ l, R l l) (h : Halt ε) :
    h.Leafwise R h where
  cause := List.forall₂_same.mpr fun l _ => hR l
  remaining := List.forall₂_same.mpr fun _ _ => List.forall₂_same.mpr fun l _ => hR l

theorem Leafwise.comp {Q : Leaf ε' → Leaf ε'' → Prop} {h : Halt ε} {h' : Halt ε'} {h'' : Halt ε''}
    (hR : h.Leafwise R h') (hQ : h'.Leafwise Q h'') :
    h.Leafwise (fun l m => ∃ l', R l l' ∧ Q l' m) h'' where
  cause := forall₂_comp hR.cause hQ.cause
  remaining := (forall₂_comp hR.remaining hQ.remaining).imp fun _ _ ⟨_, hc, hc'⟩ =>
    forall₂_comp hc hc'

theorem Leafwise.imp {Q : Leaf ε → Leaf ε' → Prop} {h : Halt ε} {h' : Halt ε'}
    (hR : h.Leafwise R h') (hRQ : ∀ l l', R l l' → Q l l') : h.Leafwise Q h' where
  cause := hR.cause.imp hRQ
  remaining := hR.remaining.imp fun _ _ hc => hc.imp hRQ

theorem leafwise_flatMap {f : ε → Cause ε'} {h : Halt ε}
    (hf : ∀ e, .fail e ∈ h.leaves → ∃ l, (f e).leaves = [l] ∧ F e l) :
    h.Leafwise (Leaf.Becomes F) (h.flatMap f) where
  cause := Cause.leafwise_flatMap fun e he =>
    hf e (List.mem_flatMap.mpr ⟨_, List.mem_cons_self, he⟩)
  remaining := by
    refine List.forall₂_map_right_iff.mpr (List.forall₂_same.mpr fun c hc => ?_)
    exact Cause.leafwise_flatMap fun e he =>
      hf e (List.mem_flatMap.mpr ⟨c, List.mem_cons_of_mem _ hc, he⟩)

theorem leafwise_flatMapM {f : ε → Action (Cause ε')}
    (hf : ∀ {e w c w'}, (f e).run w = (.ok c, w') → ∃ l, c.leaves = [l] ∧ F e l) {h : Halt ε}
    {w w' : World} {h' : Halt ε'} (hrun : (h.flatMapM f).run w = (.ok h', w')) :
    h.Leafwise (Leaf.Becomes F) h' := by
  obtain ⟨cause, w₁, hcause, hrest⟩ := Action.run_bind_ok hrun
  obtain ⟨remaining, w₂, hremaining, hpure⟩ := Action.run_bind_ok hrest
  cases hpure
  exact ⟨Cause.leafwise_flatMapM hf hcause, Cause.leafwise_mapM hf hremaining⟩

end Halt

end Leafwise

/-! ### What the interpreter makes of failures -/

namespace Halt

/-- **Dropping the types of failures loses no leaf.** -/
theorem leafwise_discard (reason : String) (h : Halt Failure) :
    h.Leafwise (Leaf.Becomes fun _ l => l = .die (.runtime reason)) (h.discard reason) :=
  leafwise_flatMap fun _ _ => ⟨_, rfl, rfl⟩

theorem leafwise_tag (type : ErrorType) (h : Halt Value) :
    h.Leafwise (Leaf.Becomes fun v l => l = .fail ⟨type, v⟩) (h.tag type) :=
  leafwise_flatMap fun _ _ => ⟨_, rfl, rfl⟩

end Halt

/-- `e.Translates mixed source target f l` says that mapping failures of type `source` to failures
of type `target` puts `l` in the place of the failure `e`; only where failures of several types are
`mixed` is one found of another type than expected. -/
inductive Failure.Translates (mixed : Prop) (source target : ErrorType) (f : Value → Action Value)
    (e : Failure) : Leaf Failure → Prop where
  | mapped {w w' : World} {v : Value} : e.type = source → (f e.value).run w = (.ok v, w') →
      Translates mixed source target f e (.fail ⟨target, v⟩)
  | mismatch : mixed → e.type ≠ source →
      Translates mixed source target f e (.die (.mismatch "failure" source.name))

namespace Halt

variable {mixed : Prop} {source target : ErrorType} {h h' : Halt Failure}

theorem leafwise_untag (hmixed : ∀ e, .fail e ∈ h.leaves → mixed ∨ e.type = source) :
    h.Leafwise (Leaf.Becomes fun e l => e.type = source ∧ l = .fail e.value ∨
      mixed ∧ e.type ≠ source ∧ l = .die (.mismatch "failure" source.name)) (h.untag source) := by
  refine leafwise_flatMap fun e he => ?_
  by_cases htype : e.type = source
  · exact ⟨.fail e.value, by rw [if_pos htype]; rfl, Or.inl ⟨htype, rfl⟩⟩
  · exact ⟨.die (.mismatch "failure" source.name), by rw [if_neg htype]; rfl,
      Or.inr ⟨(hmixed e he).resolve_right htype, htype, rfl⟩⟩

/-- **Mapping failures loses no leaf.** -/
theorem leafwise_translate {f : Value → Action Value} {w w' : World}
    (hmixed : ∀ e, .fail e ∈ h.leaves → mixed ∨ e.type = source)
    (hrun : (h.translate source target f).run w = (.ok h', w')) :
    h.Leafwise (Leaf.Becomes (Failure.Translates mixed source target f)) h' := by
  obtain ⟨mapped, w₁, hmapped, hpure⟩ := Action.run_bind_ok hrun
  cases hpure
  have hleafwise : (h.untag source).Leafwise
      (Leaf.Becomes fun v l => ∃ w b w', (f v).run w = (.ok b, w') ∧ l = .fail b) mapped := by
    refine leafwise_flatMapM (fun {v w c w'} hv => ?_) hmapped
    obtain ⟨b, w₂, hb, hpure⟩ := Action.run_bind_ok hv
    cases hpure
    exact ⟨.fail b, rfl, w, b, w', hb, rfl⟩
  -- the types are dropped, every failure is mapped, and the new type is put in
  refine (((leafwise_untag hmixed).comp hleafwise).comp (leafwise_tag target mapped)).imp ?_
  rintro l l' ⟨m, ⟨m₁, h₁, h₂⟩, h₃⟩
  cases h₁ with
  | die d | interrupt source =>
    cases h₂
    cases h₃
    constructor
  | fail h₁ =>
    refine .fail ?_
    rcases h₁ with ⟨htype, rfl⟩ | ⟨hyes, htype, rfl⟩
    · cases h₂ with
      | fail h₂ =>
        obtain ⟨w, b, w', hb, rfl⟩ := h₂
        cases h₃ with
        | fail h₃ => exact h₃ ▸ .mapped htype hb
    · cases h₂
      cases h₃
      exact .mismatch hyes htype

end Halt

end Fibers
