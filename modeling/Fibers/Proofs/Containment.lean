import Mathlib.Data.List.InsertIdx
import Fibers.Proofs.Settling
import Fibers.Effect.Nursery

/-!
# A nursery ends after all of its children

A nursery starts its children where interruption is not allowed, so it starts all of them or none.
It then waits with the status of its surroundings, and whatever comes of that wait, it waits for
every child before it ends: for all of them if they have succeeded, and otherwise for those that it
has asked to stop and for the one that has failed.  A cancellation of the fiber that runs the
nursery ends the first wait only; it finds the others where interruption is not allowed.

## Main definitions

* `Contained` — what has been done to children when an evaluation ends.
* `Settles.NurseryEnds` — with which outcome a nursery ends.

## Main results

* `Settles.interruptAll` — fibers that have been stopped have finished.
* `Settles.nursery`, `Settles.collectAllPar` — what a nursery has done when it settles.
* `Workshop.Run.nursery_contains` — **in every run the children of a nursery that has ended have
  ended.**
-/

namespace Fibers

open Effect

/-! ### Children -/

/-- Effects are started on children, in order. -/
def startAll (restore : Restore) (children : List FiberId) (effects : List Instruction) :
    List Dealing :=
  (children.zip effects).map fun p =>
    .forks p.1 (.setInterruptible restore.interruptible p.2)

/-- Children are done with: nothing has happened to them but that some have been asked to stop, and
all have finished. -/
structure Joined (P : FiberId → Prop) (children : List FiberId) (ds : List Dealing) : Prop where
  signals : ∀ d ∈ ds, ∃ c ∈ children, d = .signals c
  finished : ∀ c ∈ children, P c

/-- Every one of some effects has been started on a child of its own, and the children are done
with; or nothing has been done to others, because there is nothing to start or because of a
cancellation. -/
def Contained (P : FiberId → Prop) (restore : Restore) (effects : List Instruction) (o : Outcome)
    (ds : List Dealing) : Prop :=
  (ds = [] ∧ (effects = [] ∨ ∃ source, o = .halt (.of (.interrupt source)))) ∨
    ∃ children later, ds = startAll restore children effects ++ later ∧
      children.length = effects.length ∧ Joined P children later

section Children

variable {P P' : FiberId → Prop} {children : List FiberId} {ds : List Dealing} {restore : Restore}
  {effects : List Instruction} {o : Outcome}

theorem Joined.mono (h : Joined P children ds) (hmono : ∀ c, P c → P' c) :
    Joined P' children ds :=
  ⟨h.signals, fun c hc => hmono c (h.finished c hc)⟩

theorem Contained.mono (h : Contained P restore effects o ds) (hmono : ∀ c, P c → P' c) :
    Contained P' restore effects o ds :=
  h.imp_right fun ⟨children, later, hds, hlength, hjoined⟩ =>
    ⟨children, later, hds, hlength, hjoined.mono hmono⟩

/-- Whoever is started among some effects, where nothing else happens to others but that they are
asked to stop, is one of the children. -/
theorem mem_of_forks {later : List Dealing} {child : FiberId} {i : Instruction}
    (hmem : .forks child i ∈ startAll restore children effects ++ later)
    (hlater : .forks child i ∉ later) : child ∈ children := by
  rcases List.mem_append.mp hmem with hstart | hlast
  · obtain ⟨⟨c, i'⟩, hp, heq⟩ := List.mem_map.mp hstart
    obtain ⟨rfl, -⟩ := Dealing.forks.inj heq
    exact (List.of_mem_zip hp).1
  · exact absurd hlast hlater

/-- Every child that has been started has finished. -/
theorem Contained.of_forks (h : Contained P restore effects o ds) {child : FiberId}
    {i : Instruction} (hmem : .forks child i ∈ ds) : P child := by
  rcases h with ⟨rfl, -⟩ | ⟨children, later, rfl, -, hjoined⟩
  · cases hmem
  · refine hjoined.finished child (mem_of_forks hmem fun hlater => ?_)
    obtain ⟨c, -, heq⟩ := hjoined.signals _ hlater
    cases heq

end Children

/-! ### Waiting for fibers, and stopping them -/

namespace Settles

variable {fiber : FiberId} {p : Prospect} {run : RunState}
  {Q : Outcome → List Act → Prop} {ε ε' : ErrorType}

theorem awaitExit {f : Fiber ε} (hcalm : Calm p run)
    (h : ∀ x, p.Exits ε f.id x → Q (.done (.exit x)) [.awaits ε f.id]) :
    Settles fiber p run (.active run (.eval (f.awaitExit : Effect ε'))) Q := by
  refine wait hcalm ?_
  rintro o ⟨⟨hdone, x, rfl⟩, htells⟩
  exact h x ⟨⟨hdone, x, rfl⟩, htells⟩

/-- Who adopts the exit of a fiber waits for it, and ends with it. -/
theorem adopt {f : Fiber ε} (hrun : run.interruptible = false) :
    Settles fiber p run (.active run (.eval f.adopt)) fun o as =>
      as = [.awaits ε f.id] ∧ ∃ x, p.Exits ε f.id x ∧ o = x.tag ε := by
  refine chain_value (d := [.awaits ε f.id]) (R := fun v => ∃ x, v = .exit x ∧ p.Exits ε f.id x)
    (Or.inl hrun) (Or.inl hrun) (awaitExit (Or.inl hrun) fun x hx => ⟨_, rfl, rfl, x, rfl, hx⟩) ?_
  rintro v ⟨x, rfl, hx⟩ w
  exact done (Or.inl hrun) ⟨rfl, x, hx, rfl⟩

/-- **Fibers that have been stopped have finished**, and their exits are known. -/
theorem interruptAll {fibers : List (Fiber ε)} (hrun : run.interruptible = false)
    (h : ∀ xs, List.Forall₂ (fun f x => p.Exits ε f.id x) fibers xs →
      Q (.done (.list (xs.map .exit)))
        (fibers.map (fun f => .signals f.id) ++ fibers.map fun f => .awaits ε f.id)) :
    Settles fiber p run
      (.active run (.eval (Fiber.interruptAll fibers : Effect ε'))) Q := by
  refine chain_value (d := fibers.map fun f => .signals f.id) (R := fun _ => True) (Or.inl hrun)
    (Or.inl hrun) ?_ ?_
  · refine collectAll_map (d := fun f => [.signals f.id]) (R := fun _ _ => True) hrun
      (fun f _ r hr => signal (Or.inl hr) ⟨_, rfl, rfl, trivial⟩) fun vs _ => ⟨_, rfl, ?_, trivial⟩
    exact List.map_eq_flatMap.symm
  · rintro v - w
    refine collectAll_map (d := fun f => [.awaits ε f.id])
      (R := fun f v => ∃ x, v = .exit x ∧ p.Exits ε f.id x) hrun
      (fun f _ r hr => awaitExit (Or.inl hr) fun x hx => ⟨_, rfl, rfl, x, rfl, hx⟩)
      fun vs hvs => ?_
    obtain ⟨xs, rfl, hxs⟩ : ∃ xs : List (Exit Value Value), vs = xs.map .exit ∧
        List.Forall₂ (fun f x => p.Exits ε f.id x) fibers xs := by
      clear h
      induction hvs with
      | nil => exact ⟨[], rfl, .nil⟩
      | cons hx _ ih =>
        obtain ⟨x, rfl, hx⟩ := hx
        obtain ⟨xs, rfl, hxs⟩ := ih
        exact ⟨x :: xs, rfl, .cons hx hxs⟩
    rw [← List.map_eq_flatMap]
    exact h xs hxs

theorem isFinished_of_exits {fibers : List (Fiber ε)} {xs : List (Exit Value Value)}
    (h : List.Forall₂ (fun f x => p.Exits ε f.id x) fibers xs) :
    ∀ f ∈ fibers, p.final.isFinished f.id = true := by
  induction h with
  | nil => exact nofun
  | cons hx _ ih => exact List.forall_mem_cons.mpr ⟨hx.isFinished, ih⟩

/-! ### The nursery -/

theorem exitsOf_map (xs : List (Exit Value Value)) : exitsOf (xs.map .exit) = xs := by
  induction xs with
  | nil => rfl
  | cons x xs ih => exact congrArg (x :: ·) ih

/-- What a nursery does whose child has failed: it stops the others, and waits for all. -/
def stopSiblings (ε : ErrorType) (culprit : FiberId) (siblings : List FiberId) : List Act :=
  siblings.map .signals ++ siblings.map (.awaits ε) ++ [.awaits ε culprit]

/-- A nursery in which a child has failed stops the others, waits for all, and ends with the
failures of all. -/
theorem failNursery {culprit : Fiber ε} {siblings : List (Fiber ε)}
    (hrun : run.interruptible = false) :
    Settles fiber p run (.active run (.eval (failNursery culprit siblings)))
      fun o as => as = stopSiblings ε culprit.id (siblings.map Fiber.id) ∧ ∃ x xs,
        p.Exits ε culprit.id x ∧ List.Forall₂ (fun f x => p.Exits ε f.id x) siblings xs ∧
          o = .halt ((xs.foldl Halt.keepSibling (failureOf x)).tag ε) := by
  refine chain_value
    (d := siblings.map (fun f => .signals f.id) ++ siblings.map fun f => .awaits ε f.id)
    (R := fun v => ∃ xs : List (Exit Value Value), v = .list (xs.map .exit) ∧
      List.Forall₂ (fun f x => p.Exits ε f.id x) siblings xs)
    (Or.inl hrun) (Or.inl hrun)
    (interruptAll hrun fun xs hxs => ⟨_, rfl, rfl, xs, rfl, hxs⟩) ?_
  rintro v ⟨xs, rfl, hxs⟩ w
  refine chain_value (d := [.awaits ε culprit.id])
    (R := fun v => ∃ x, v = .exit x ∧ p.Exits ε culprit.id x)
    (Or.inl hrun) (Or.inl hrun) (awaitExit (Or.inl hrun) fun x hx => ⟨_, rfl, rfl, x, rfl, hx⟩) ?_
  rintro v ⟨x, rfl, hx⟩ w'
  refine done (Or.inl hrun) ⟨?_, x, xs, hx, hxs, ?_⟩
  · rw [List.append_nil, stopSiblings, List.map_map, List.map_map]
    rfl
  · rw [exitsOf_map]
    rfl

/-- How a nursery ends whose wait for its children has not been cut short, and what it does until
then. -/
inductive NurseryEnds (p : Prospect) (ε : ErrorType) (children : List FiberId) :
    Outcome → List Act → Prop where
  /-- It has been told that no child has failed, and has adopted their exits: it ends with the
  values of all, or with a failure of one after all. -/
  | succeeded {o : Outcome} {adopted : List FiberId} :
      p.Answers (.firstFailure children) (.done .none) → adopted <+: children →
        ((∃ vs, o = .done (.list vs) ∧
            List.Forall₂ (fun c v => p.Exits ε c (.done v)) children vs) ∨
          ∃ c ∈ children, ∃ g : Halt Value, p.Exits ε c (.halt g) ∧ o = .halt (g.tag ε)) →
          NurseryEnds p ε children o (.waits (.firstFailure children) :: adopted.map (.awaits ε))
  /-- It has been told that one has failed, and has stopped the others. -/
  | failed {i : Nat} {culprit : FiberId} {x : Exit Value Value} {xs : List (Exit Value Value)} :
      p.Answers (.firstFailure children) (.done (.some (.int i))) →
        children[i]? = some culprit → p.Exits ε culprit x →
          List.Forall₂ (p.Exits ε) (children.eraseIdx i) xs →
            NurseryEnds p ε children (.halt ((xs.foldl Halt.keepSibling (failureOf x)).tag ε))
              (.waits (.firstFailure children) :: stopSiblings ε culprit (children.eraseIdx i))

theorem dealt_map_awaits (ε : ErrorType) (fs : List FiberId) :
    dealt (fs.map (.awaits ε)) = [] := by
  induction fs with
  | nil => rfl
  | cons f fs ih => exact ih

theorem dealt_map_signals (fs : List FiberId) :
    dealt (fs.map .signals) = fs.map .signals := by
  induction fs with
  | nil => rfl
  | cons f fs ih => exact congrArg (_ :: ·) ih

/-- A nursery that has been told how its children do ends after all of them. -/
theorem settleNursery {children : List (Fiber ε)} {o : Outcome} {verdict : Value}
    (hrun : run.interruptible = false)
    (hanswered : p.Answers (.firstFailure (children.map Fiber.id)) o) (ho : o = .done verdict) :
    Settles fiber p run (.active run (.eval (settleNursery children verdict))) fun o as =>
      Joined (fun c => p.final.isFinished c = true) (children.map Fiber.id) (dealt as) ∧
        NurseryEnds p ε (children.map Fiber.id) o
          (.waits (.firstFailure (children.map Fiber.id)) :: as) := by
  subst ho
  have hall := hanswered
  rcases hanswered.1 with ⟨heq, hfinished⟩ | ⟨i, c, hc, heq, -⟩
  · -- all have succeeded, and their exits are adopted
    obtain rfl := Exit.done.inj heq
    refine (collectAll_until hrun fun f _ r hr => adopt hr).mono fun o as => ?_
    rintro ⟨tried, hinitial, rfl, hends⟩
    have hadopted : (tried.map fun f : Fiber ε => Act.awaits ε f.id) =
        (tried.map Fiber.id).map (.awaits ε) := by
      rw [List.map_map]
      rfl
    rw [hadopted, dealt_map_awaits]
    refine ⟨⟨nofun, hfinished⟩, .succeeded hall (hinitial.map _) ?_⟩
    rcases hends with ⟨vs, rfl, hvs⟩ | ⟨h, rfl, f, hf, x, hx, hhalt⟩
    · refine Or.inl ⟨vs, rfl, List.forall₂_map_left_iff.mpr (hvs.imp ?_)⟩
      rintro f v ⟨x, hx, hv⟩
      exact Exit.tag_eq_done_iff.mp hv.symm ▸ hx
    · obtain ⟨g, rfl, hg⟩ := Exit.tag_eq_halt_iff.mp hhalt.symm
      exact Or.inr ⟨f.id, List.mem_map_of_mem hf, g, hx, congrArg Exit.halt hg.symm⟩
  · obtain rfl := Exit.done.inj heq
    rw [List.getElem?_map, Option.map_eq_some_iff] at hc
    obtain ⟨culprit, hculprit, rfl⟩ := hc
    have hcode : Effect.settleNursery children (.some (.int i)) =
        Effect.failNursery culprit (children.eraseIdx i) := by
      simp [Effect.settleNursery, hculprit]
    rw [hcode]
    refine (failNursery hrun).mono ?_
    rintro o as ⟨rfl, x, xs, hx, hxs, rfl⟩
    have hsiblings := isFinished_of_exits hxs
    rw [← List.eraseIdx_map]
    refine ⟨⟨fun d hd => ?_, fun c hc => ?_⟩, ?_⟩
    · rw [stopSiblings, dealt_append, dealt_append, dealt_map_signals, dealt_map_awaits,
        List.append_nil, dealt_waits, dealt_nil, List.append_nil] at hd
      obtain ⟨c, hc, rfl⟩ := List.mem_map.mp hd
      exact ⟨c, List.mem_of_mem_eraseIdx hc, rfl⟩
    · obtain ⟨f, hf, rfl⟩ := List.mem_map.mp hc
      obtain ⟨j, hj, rfl⟩ := List.getElem_of_mem hf
      by_cases hij : j = i
      · subst hij
        rw [List.getElem?_eq_getElem hj] at hculprit
        exact Option.some.inj hculprit ▸ hx.isFinished
      · exact hsiblings _ (List.mem_eraseIdx_iff_getElem.mpr ⟨j, hj, hij, rfl⟩)
    · refine .failed hall ?_ hx ?_
      · rw [List.getElem?_map, hculprit]
        rfl
      · rw [List.eraseIdx_map]
        exact List.forall₂_map_left_iff.mpr hxs

/-- A nursery whose children have been started ends after all of them: the first wait may be cut
short, and what follows on it may not. -/
theorem nursery_wait {restore : Restore} {children : List (Fiber ε)}
    (hrun : run.interruptible = false) :
    Settles fiber p run
      (.active run (.eval ((restore.apply (firstFailure children : Effect ε)).foldHalt
        (fun h => pure ((Fiber.interruptAll children : Effect ε).chain fun _ => pure (halt h)))
        fun verdict => pure (Effect.settleNursery children verdict) : Effect ε)))
      fun o as => Joined (fun c => p.final.isFinished c = true) (children.map Fiber.id) (dealt as) ∧
        ((p.asked ∧ ∃ source, o = .halt (.of (.interrupt source))) ∨
          NurseryEnds p ε (children.map Fiber.id) o as) := by
  refine fold (P := fun o as => dealt as = [] ∧
    (as = [.waits (.firstFailure (children.map Fiber.id))] ∧
        p.Answers (.firstFailure (children.map Fiber.id)) o ∨
      p.asked ∧ ∃ source, o = .halt (.of (.interrupt source)))) hrun
    (region_wait (Or.inl hrun) (fun o hanswered => ⟨rfl, Or.inl ⟨rfl, hanswered⟩⟩) ?_) ?_ ?_
  · rintro hasked source as (rfl | rfl) <;> exact ⟨rfl, Or.inr ⟨hasked, _, rfl⟩⟩
  · rintro verdict as ⟨-, ⟨rfl, hanswered⟩ | ⟨-, source, heq⟩⟩ w
    · exact (settleNursery hrun hanswered rfl).mono fun o as hends => ⟨hends.1, Or.inr hends.2⟩
    · cases heq
  · rintro h as ⟨hdealt, ⟨-, hanswered⟩ | ⟨hasked, source, heq⟩⟩ w
    · -- what is told is a value
      rcases hanswered.1 with ⟨heq, -⟩ | ⟨i, c, -, heq, -⟩ <;> cases heq
    obtain rfl := Exit.halt.inj heq
    refine chain_value
      (d := children.map (fun f => .signals f.id) ++ children.map fun f => .awaits ε f.id)
      (R := fun _ => ∀ f ∈ children, p.final.isFinished f.id = true) (Or.inl hrun) (Or.inl hrun)
      (interruptAll hrun fun xs hxs => ⟨_, rfl, rfl, isFinished_of_exits hxs⟩) ?_
    rintro v hall w'
    refine done (Or.inl hrun) ⟨⟨fun d hd => ?_, fun c hc => ?_⟩, Or.inl ⟨hasked, source, rfl⟩⟩
    · have hsignals : (children.map fun f : Fiber ε => Act.signals f.id) =
          (children.map Fiber.id).map .signals := by rw [List.map_map]; rfl
      have hawaits : (children.map fun f : Fiber ε => Act.awaits ε f.id) =
          (children.map Fiber.id).map (.awaits ε) := by rw [List.map_map]; rfl
      rw [List.append_nil, dealt_append, hdealt, List.nil_append, dealt_append, hsignals, hawaits,
        dealt_map_signals, dealt_map_awaits, List.append_nil] at hd
      obtain ⟨c, hc, rfl⟩ := List.mem_map.mp hd
      exact ⟨c, hc, rfl⟩
    · obtain ⟨f, hf, rfl⟩ := List.mem_map.mp hc
      exact hall f hf

/-- Effects that have been started one after the other run on children of their own. -/
theorem exists_children {restore : Restore} {es : List (Effect ε)} {rs : List (Value × List Act)}
    (h : List.Forall₂ (fun e r => ∃ c, r.1 = .fiber c ∧ r.2 = [.forks c (restore.apply e)]) es rs) :
    ∃ children : List FiberId, children.length = es.length ∧
      rs.map Prod.fst = children.map Value.fiber ∧
        rs.flatMap Prod.snd = (startAll restore children es).map .deals := by
  induction h with
  | nil => exact ⟨[], rfl, rfl, rfl⟩
  | @cons e r es rs hr _ ih =>
    obtain ⟨c, hvalue, hds⟩ := hr
    obtain ⟨children, hlength, hvalues, hstart⟩ := ih
    refine ⟨c :: children, congrArg (· + 1) hlength, ?_, ?_⟩
    · rw [List.map_cons, hvalue, hvalues, List.map_cons]
    · rw [List.flatMap_cons, hds, hstart]
      rfl

theorem map_id_childrenOf (children : List FiberId) :
    (childrenOf (children.map Value.fiber) : List (Fiber ε)).map Fiber.id = children := by
  induction children with
  | nil => rfl
  | cons c children ih => exact congrArg (c :: ·) ih

/-- **What a nursery has done when it settles, and how it ends**, wherever it is evaluated: with the
cancellation that has cut short its wait for its children, or as it has been told of these. -/
theorem nursery_cut (es : List (Effect ε)) :
    Settles fiber p run (.active run (.eval (Effect.collectAllPar es))) fun o as =>
      (as = [] ∧ (es = [] ∧ o = .done (.list []) ∨
          p.asked ∧ ∃ source, o = .halt (.of (.interrupt source)))) ∨
        ∃ children later, as = (startAll ⟨run.interruptible⟩ children es).map .deals ++ later ∧
          children.length = es.length ∧
            Joined (fun c => p.final.isFinished c = true) children (dealt later) ∧
              ((p.asked ∧ ∃ source, o = .halt (.of (.interrupt source))) ∨
                NurseryEnds p ε children o later) := by
  generalize hQ : (fun (o : Outcome) (as : List Act) =>
    (as = [] ∧ (es = [] ∧ o = .done (.list []) ∨
        p.asked ∧ ∃ source, o = .halt (.of (.interrupt source)))) ∨
      ∃ children later, as = (startAll ⟨run.interruptible⟩ children es).map .deals ++ later ∧
        children.length = es.length ∧
          Joined (fun c => p.final.isFinished c = true) children (dealt later) ∧
            ((p.asked ∧ ∃ source, o = .halt (.of (.interrupt source))) ∨
              NurseryEnds p ε children o later)) = Q
  have hbears : Bears p run Q := bears_of_asked fun hasked source =>
    hQ ▸ Or.inl ⟨rfl, Or.inr ⟨hasked, source, rfl⟩⟩
  cases es with
  | nil =>
    refine suspend hbears fun _ => eval hbears fun _ => @handed _ _ _ _ (.done (.list [])) ?_
    exact hQ ▸ Or.inl ⟨rfl, Or.inl ⟨rfl, rfl⟩⟩
  | cons e es =>
    simp only [Effect.collectAllPar, List.isEmpty_cons, Bool.false_eq_true, if_false]
    refine mask hbears ?_
    subst hQ
    have hrun : (run.enterStatus false).interruptible = false := rfl
    generalize run.enterStatus false = masked at hrun ⊢
    generalize (⟨run.interruptible⟩ : Restore) = restore
    refine chain (Or.inl hrun) (Or.inl hrun)
      (@collectAll fiber p _ ε (Effect ε) (e :: es) (fun e => (restore.apply e).fork)
      (fun e v as => ∃ c, v = .fiber c ∧ as = [.forks c (restore.apply e)]) hrun
      fun e _ r hr => fork (Or.inl hr) fun c => ⟨_, rfl, c, rfl, rfl⟩) ?_ ?_
    · rintro v as ⟨rs, heq, rfl, hrs⟩ w
      obtain rfl := Exit.done.inj heq
      obtain ⟨children, hlength, hvalues, hstart⟩ := exists_children hrs
      rw [hvalues, hstart]
      have hwait := @nursery_wait fiber p masked ε restore
        (childrenOf (children.map Value.fiber)) hrun
      refine hwait.mono fun o later hends => Or.inr ⟨children, later, rfl, hlength, ?_⟩
      rwa [map_id_childrenOf] at hends
    · rintro failure as ⟨rs, heq, -⟩
      cases heq

/-- What a nursery has done when it settles, and how it ends unless its fiber is asked to stop. -/
theorem nursery (es : List (Effect ε)) :
    Settles fiber p run (.active run (.eval (Effect.collectAllPar es))) fun o as =>
      (as = [] ∧ (es = [] ∧ o = .done (.list []) ∨
          p.asked ∧ ∃ source, o = .halt (.of (.interrupt source)))) ∨
        ∃ children later, as = (startAll ⟨run.interruptible⟩ children es).map .deals ++ later ∧
          children.length = es.length ∧
            Joined (fun c => p.final.isFinished c = true) children (dealt later) ∧
              (p.asked ∨ NurseryEnds p ε children o later) :=
  (nursery_cut es).mono fun _ _ hends => hends.imp_right
    fun ⟨children, later, has, hlength, hjoined, hhow⟩ =>
      ⟨children, later, has, hlength, hjoined, hhow.imp_left And.left⟩

/-- What a nursery has done to its children when it settles. -/
theorem collectAllPar (es : List (Effect ε)) :
    Settles fiber p run (.active run (.eval (collectAllPar es))) fun o as =>
      Contained (fun c => p.final.isFinished c = true) ⟨run.interruptible⟩ es o (dealt as) := by
  refine (nursery es).mono ?_
  rintro o as (⟨rfl, ⟨hnone, -⟩ | ⟨-, hcut⟩⟩ | ⟨children, later, rfl, hlength, hjoined, -⟩)
  · exact Or.inl ⟨rfl, Or.inl hnone⟩
  · exact Or.inl ⟨rfl, Or.inr hcut⟩
  · refine Or.inr ⟨children, dealt later, ?_, hlength, hjoined⟩
    rw [dealt_append, dealt_map_deals]

end Settles

/-! ### Runs -/

namespace Workshop

/-- **In every run a nursery ends after all of its children**: when the fiber that runs it is handed
its outcome, whichever it is and whenever the fiber has been asked to stop, every one of the effects
has been started on a child of its own and all children have ended, or none has been started.  A
child that has ended has left every bracket to which it had come. -/
theorem Run.nursery_contains {budget minted : Nat} {s : Workshop}
    {record : List (FiberId × Event)} (h : Run budget (init minted) record s) {fiber : FiberId}
    {base : RunState} {ε : ErrorType} {es : List (Effect ε)} {during : List Event} {o : Outcome}
    (hdone : Evaluated s record fiber base (collectAllPar es) during o) :
    Contained (fun c => ∃ es o, History s record c es (.ended o)) ⟨base.interruptible⟩ es o
      (dealings during) := by
  have hspares : Spares fiber (fun _ => False) (.active base (.eval (collectAllPar es))) during :=
    fun _ _ _ _ _ _ _ _ => id
  have hcontained := hdone.settles h hspares id (.collectAllPar es)
  rw [dealt_acts] at hcontained
  exact hcontained.mono fun c hc => h.ended_of_isFinished hc

/-! ### A fiber that is asked to stop -/

/-- A fiber is started that runs an effect, and makes some moves. -/
def begun (i : Instruction) (n : Nat) : Machine :=
  (Machine.startRoot (.init 16 0) i .unit none).2.moves none n

/-- The fiber is asked to stop then. -/
def asked (i : Instruction) (n : Nat) : Machine :=
  { begun i n with world := (begun i n).world.interrupt ⟨1⟩ ⟨0⟩ }

/-- The workshop after some more moves. -/
def afterAsked (i : Instruction) (n m : Nat) : Workshop := ((asked i n).moves none m).workshop

/-- What has been done until then. -/
def recordAsked (i : Instruction) (n m : Nat) : List (FiberId × Event) :=
  (begun i 0).record none n ++ (asked i n).record none m

/-- A fiber runs an effect and is asked to stop. -/
theorem run_asked (i : Instruction) (n m : Nat) :
    Run 16 (init 0) (recordAsked i n m) (afterAsked i n m) := by
  have hstart : Move 16 (init 0) [] (begun i 0).workshop := .start i .unit none
  have hasked : Move 16 (begun i n).workshop [] (asked i n).workshop := .interrupt ⟨1⟩ ⟨0⟩
  have hbudget : (asked i n).budget = 16 := by
    rw [asked, begun, Machine.budget_moves]
    rfl
  have hlast := Machine.moves_run none m (asked i n)
  rw [hbudget] at hlast
  exact .idle hstart ((Machine.moves_run none n (begun i 0)).append (.idle hasked hlast))

/-- A nursery in which one child succeeds, and the other one waits for ever. -/
def stoppedNursery : List (Effect ⟨"E"⟩) := [unit, never]

/-- A nursery that is asked to stop while it waits for its children. -/
theorem Run.nursery_contains_stopped :
    ∃ during o, Evaluated (afterAsked (collectAllPar stoppedNursery) 40 60)
        (recordAsked (collectAllPar stoppedNursery) 40 60) ⟨1⟩ (.start .unit true)
        (collectAllPar stoppedNursery) during o ∧
      (∃ i, .forks ⟨3⟩ i ∈ dealings during) ∧
      Contained (fun c => ∃ es o, History (afterAsked (collectAllPar stoppedNursery) 40 60)
        (recordAsked (collectAllPar stoppedNursery) 40 60) c es (.ended o)) ⟨true⟩ stoppedNursery o
        (dealings during) := by
  have hrun := run_asked (collectAllPar stoppedNursery) 40 60
  have hended : (afterAsked (collectAllPar stoppedNursery) 40 60).world.store.isFinished ⟨1⟩ =
      true := by decide +kernel
  obtain ⟨es, o, hhistory⟩ := hrun.ended_of_isFinished hended
  have hfirst : ∃ w, (eventsOf ⟨1⟩ (recordAsked (collectAllPar stoppedNursery) 40 60)).head? =
      some (.iterated w (.start .unit true) (.eval (collectAllPar stoppedNursery))) := ⟨_, rfl⟩
  obtain ⟨w, hfirst⟩ := hfirst
  obtain ⟨during, o', hdone, -, hacts, -⟩ := hhistory.evaluated hfirst rfl
  refine ⟨during, o', hdone, ?_, Run.nursery_contains hrun hdone⟩
  rw [← dealt_acts, hacts, dealt_acts]
  exact ⟨_, .tail _ (.head _)⟩

end Workshop

end Fibers
