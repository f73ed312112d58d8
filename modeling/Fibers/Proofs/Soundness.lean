import Fibers.Proofs.Blindness
import Fibers.Proofs.Containment
import Fibers.Proofs.ExitDelivery
import Fibers.Proofs.TypedIteration

/-!
# Soundness of types

A program with types is run by an interpreter that knows nothing of them.  Whatever comes from
outside of a workshop may be as it pleases as long as it is typed: fibers may be started, actions
carried out, waits completed and fibers interrupted at any time and under every schedule, and what is
done later may depend on what has been made before.  Then a type can be told for everything that is
ever made, in such a way that in every iteration the rest of the fiber accepts what the fiber goes on
with.  The failures of a halt have the type that is accepted by what is at the top of the
continuation stack, in its primary cause and in all the others, also where an interruption has passed
a handler by that would have changed the type; values have the type that is accepted; and a fiber
ends as was declared when it was started.

It follows that nothing is ever found to be of another type than expected, since such a finding is
itself a defect, and one that is never allowed.

## Main definitions

* `Workshop.Typed` — a typed workshop.
* `Choice.Typed`, `Workshop.Conducted` — runs in which all that comes from outside is typed.
* `Defect.IsMismatch` — something is not of the type expected.

## Main results

* `Workshop.Makes.typed` — what happens leaves a typed workshop.
* `Workshop.Conducted.typed` — so does a run, and all that is done in it is typed.
* `Workshop.Conducted.type_sound` — **types are sound, and there is no mismatch.**
-/

namespace Fibers

variable {S : Declarations} {Γ Γ' : Context}

/-! ### Typed workshops -/

/-- All that has been made is there, and every running fiber goes on as it should. -/
structure Workshop.Typed (S : Declarations) (Γ : Context) (s : Workshop) : Prop where
  world : s.world.Typed S Γ
  running : ∀ slice ∈ s.running, Runs S Γ slice.fiber slice.run slice.step

/-- What a fiber does when it iterates is typed. -/
def Event.Typed (S : Declarations) (Γ : Context) (fiber : FiberId) : Event → Prop
  | .iterated _ run step => Runs S Γ fiber run step
  | _ => True

/-- In an iteration that carries out what may be carried out once, it is carried out for the first
time. -/
def Event.IsFirst : Event → Prop
  | .iterated w _ step => step.IsFirst w
  | _ => True

theorem Event.Typed.mono {fiber : FiberId} {e : Event} (hle : Γ ≤ Γ') (h : e.Typed S Γ fiber) :
    e.Typed S Γ' fiber := by
  cases e with
  | iterated w run step => exact Runs.mono hle h
  | started _ _ _ | stopped _ | resumed _ | cancelled _ => trivial

/-- Running fibers go on as they should in a later world as well. -/
theorem Workshop.Typed.later {s : Workshop} {w : World} (hs : s.Typed S Γ) (hle : Γ ≤ Γ')
    (hw : w.Typed S Γ') : Workshop.Typed S Γ' ⟨w, s.running⟩ :=
  ⟨hw, fun slice hmem => (hs.running slice hmem).mono hle⟩

/-- Where nothing has been started, nothing has been made. -/
theorem Workshop.typed_init (minted : Nat) : (init minted).Typed S .empty where
  world := {
    store := {
      fibers := .nothing _
      cells := .nothing _
      channels := .nothing _
      leases := .nothing _
      alarms := nofun
      handles := nofun
      reports := nofun }
    places := .nothing _
    tasks := nofun
    releases := .nothing _
    owner := fun {fiber r s} hr _ => by
      simp [Store.fiber?, init, World.init, Store.init, Numbered.get?, Numbered.startingAt] at hr }
  running := nofun

/-! ### What comes from outside -/

/-- `Choice.Typed S Γ w c roots knows` says that what is chosen is typed; `roots` are the fibers
that are started, with what has been declared of their ends, and `knows` is what is known of the
things that are made. -/
inductive Choice.Typed (S : Declarations) (Γ : Context) (w : World) :
    Choice → List (FiberId × Ending) → (Context → Prop) → Prop where
  | pick (n : Nat) : Typed S Γ w (.pick n) [] fun _ => True
  | advance (n : Nat) : Typed S Γ w (.advance n) [] fun _ => True
  | interrupt (target source : FiberId) : Typed S Γ w (.interrupt target source) [] fun _ => True
  | ring : Typed S Γ w .ring [] fun _ => True
  | act {α : Type} {Q : Context → Unit → α → Prop} {a : Action α} : a.Safe S Q Γ () →
      Typed S Γ w (.act a) [] fun Γ' => Action.Yields S Q Γ' () (a.run w).1
  | start {effect : Instruction} {environment : Value} {report : Option ErrorType}
      {σ : Signature} : effect.Typed S Γ σ → environment.HasTy S Γ σ.env →
      (∀ type, report = some type → type = σ.error) →
      Typed S Γ w (.start effect environment report) [(w.store.nextFiber, σ.ending)] fun _ => True

/-- An alarm that rings tells a sleeper that the time has come. -/
theorem World.Typed.ring {w : World} {budget : Nat} {m : Machine} (h : w.Typed S Γ)
    (hm : Machine.ring { budget, world := w } = some m) : m.world.Typed S Γ := by
  unfold Machine.ring at hm
  simp only at hm
  split at hm
  · cases hm
  · next alarm alarms hfirst =>
    obtain rfl := Option.some.inj hm
    unfold Alarms.first? at hfirst
    split at hfirst
    · cases hfirst
    · next first pending hpending =>
      obtain ⟨rfl, rfl⟩ := Prod.mk.inj (Option.some.inj hfirst)
      have hsleeping : ∀ a ∈ first :: pending, Γ.Tells a.payload .unit :=
        fun a ha => h.store.alarms a (hpending ▸ ha)
      obtain ⟨hsleeper, hothers⟩ := List.forall_mem_cons.mp hsleeping
      have hstore : ({ w.store with alarms := { w.store.alarms with pending }
                                    now := max w.store.now first.deadline } : Store).Keeps S Γ Γ :=
        { h.store with alarms := hothers }
      exact (h.withStore hstore rfl).tell hsleeper .unit

namespace Workshop

variable {budget minted : Nat} {s s' t : Workshop} {events record : List (FiberId × Event)}
  {roots : List (FiberId × Ending)}

/-- `Conducted S budget Γ s roots record t` says that a run is one in which all that comes from
outside is typed, whichever types are told for what has been made by then; `roots` are the fibers
that are started from outside, with what has been declared of their ends. -/
inductive Conducted (S : Declarations) (budget : Nat) :
    Context → Workshop → List (FiberId × Ending) → List (FiberId × Event) → Workshop → Prop where
  | rest {Γ : Context} {s : Workshop} : Conducted S budget Γ s [] [] s
  | move {Γ : Context} {c : Choice} {s s' t : Workshop} {knows : Context → Prop}
      {events record : List (FiberId × Event)} {roots roots' : List (FiberId × Ending)} :
      c.Typed S Γ s.world roots knows → Makes budget c s events s' →
      (∀ Γ', Γ ≤ Γ' → s'.Typed S Γ' → (∀ p ∈ roots, Γ'.fibers p.1.raw = some p.2) → knows Γ' →
        Conducted S budget Γ' s' roots' record t) →
      Conducted S budget Γ s (roots ++ roots') (events ++ record) t

/-- What a fiber does in its turn is typed. -/
theorem Typed.doings {w : World} {slice : Slice} (hslice : Runs S Γ slice.fiber slice.run slice.step) :
    ∀ p ∈ (slice.doings budget w).map (slice.fiber, ·), p.2.Typed S Γ p.1 := by
  obtain ⟨root, σ, hroot, hrun, hstep⟩ := hslice
  intro p hp
  obtain ⟨e, he, rfl⟩ := List.mem_map.mp hp
  simp only [Slice.doings] at he
  generalize (if Machine.counts slice.step then slice.used + 1 else slice.used) = used at he
  split at he
  · cases he
  · rcases List.mem_append.mp he with hstopped | hiterated
    · split at hstopped
      · obtain rfl := List.mem_singleton.mp hstopped
        trivial
      · cases hstopped
    · obtain rfl := List.mem_singleton.mp hiterated
      exact ⟨root, σ, hroot, hrun, hstep.divert w slice.fiber slice.run⟩

/-- An iteration, or the end of a turn, leaves a typed workshop. -/
theorem Typed.advance {before after : List Slice} {slice : Slice} {w : World} (hS : S.Allows)
    (hs : Workshop.Typed S Γ ⟨w, before ++ slice :: after⟩)
    (honce : S.defect .oneShot ∨
      ∀ p ∈ (slice.doings budget w).map (slice.fiber, ·), Event.IsFirst p.2) :
    ∃ Γ', Γ ≤ Γ' ∧ Workshop.Typed S Γ' ⟨(Machine.advance { budget, world := w } slice).world,
      before ++ (Machine.advance { budget, world := w } slice).running.toList ++ after⟩ := by
  obtain ⟨hbefore, hrest⟩ := List.forall_mem_append.mp hs.running
  obtain ⟨hslice, hafter⟩ := List.forall_mem_cons.mp hrest
  have hothers : ∀ {Γ' next}, Γ ≤ Γ' → (∀ n ∈ next, Runs S Γ' n.fiber n.run n.step) →
      ∀ n ∈ before ++ next ++ after, Runs S Γ' n.fiber n.run n.step := by
    intro Γ' next hle hnext
    rw [List.forall_mem_append, List.forall_mem_append]
    exact ⟨⟨fun n hn => (hbefore n hn).mono hle, hnext⟩, fun n hn => (hafter n hn).mono hle⟩
  simp only [Slice.doings] at honce
  simp only [Machine.advance]
  generalize (if Machine.counts slice.step then slice.used + 1 else slice.used) = used at honce ⊢
  by_cases hused : max budget 1 < used
  · -- the budget is used up
    simp only [if_pos hused]
    exact ⟨Γ, le_rfl, hs.world.schedule hslice, hothers le_rfl (List.forall_mem_nil _)⟩
  · simp only [if_neg hused] at honce ⊢
    obtain ⟨root, σ, hroot, hrun, hstep⟩ := hslice
    obtain ⟨Γ', hle, hworld, hprogress⟩ := hs.world.iterate hS hroot hrun hstep
      (honce.imp_right fun hfirst => hfirst (slice.fiber, _)
        (List.mem_map_of_mem (List.mem_append_right _ List.mem_cons_self)))
    generalize w.iterate slice.fiber slice.run slice.step = result at hworld hprogress
    obtain ⟨progress, w'⟩ := result
    cases progress with
    | none => exact ⟨Γ', hle, hworld, hothers hle (List.forall_mem_nil _)⟩
    | some next =>
      exact ⟨Γ', hle, hworld, hothers hle (List.forall_mem_singleton.mpr (hprogress next rfl))⟩

/-- **What happens leaves a typed workshop.** -/
theorem Makes.typed {c : Choice} {knows : Context → Prop} (hS : S.Allows) (hs : s.Typed S Γ)
    (hc : c.Typed S Γ s.world roots knows) (h : Makes budget c s events s')
    (honce : S.defect .oneShot ∨ ∀ p ∈ events, p.2.IsFirst) :
    ∃ Γ', Γ ≤ Γ' ∧ s'.Typed S Γ' ∧ (∀ p ∈ roots, Γ'.fibers p.1.raw = some p.2) ∧ knows Γ' ∧
      ∀ p ∈ events, p.2.Typed S Γ' p.1 := by
  cases h with
  | @pick w running tasks before after task hw htasks =>
    cases hc
    have hready : ∀ t ∈ before ++ task :: after, Runs S Γ t.fiber t.run t.step :=
      fun t ht => hs.world.tasks t (hw ▸ ht)
    refine ⟨Γ, le_rfl, ⟨⟨hs.world.store, hs.world.places, fun t ht => hready t ?_,
      hs.world.releases, hs.world.owner⟩, ?_⟩, nofun, trivial, nofun⟩
    · rw [htasks] at ht
      exact List.mem_append.mpr ((List.mem_append.mp ht).imp_right (List.mem_cons_of_mem _))
    · exact List.forall_mem_cons.mpr
        ⟨hready task (List.mem_append_right _ List.mem_cons_self), hs.running⟩
  | advance hm =>
    cases hc
    subst hm
    obtain ⟨Γ', hle, hnext⟩ := hs.advance hS honce
    refine ⟨Γ', hle, hnext, nofun, trivial, fun p hp => ?_⟩
    exact (Typed.doings (hs.running _ (List.mem_append_right _ List.mem_cons_self)) p hp).mono hle
  | interrupt target source =>
    cases hc
    obtain ⟨Γ', hle, hworld⟩ := hs.world.interrupt target source
    exact ⟨Γ', hle, hs.later hle hworld, nofun, trivial, nofun⟩
  | act a =>
    cases hc with
    | act ha =>
      obtain ⟨Γ', hle, hworld, hyields⟩ := World.Typed.run ha hs.world
      exact ⟨Γ', hle, hs.later hle hworld, nofun, hyields, nofun⟩
  | @ring w running m hm =>
    cases hc
    exact ⟨Γ, le_rfl, hs.later le_rfl (hs.world.ring hm), nofun, trivial, nofun⟩
  | @start w running effect environment report =>
    cases hc with
    | @start _ _ _ σ heffect henvironment hreport =>
      have hrecord : ({ observers := (report.map Observer.report).toList } : FiberRecord).Typed
          S Γ σ.ending := by
        refine ⟨nofun, fun o ho => ?_⟩
        obtain ⟨type, htype, rfl⟩ := Option.map_eq_some_iff.mp (Option.mem_toList.mp ho)
        exact hreport type htype
      obtain ⟨Γ', hle, hself, hworld⟩ := hs.world.born true hrecord rfl henvironment heffect
      exact ⟨Γ', hle, hs.later hle hworld, List.forall_mem_singleton.mpr hself, trivial, nofun⟩

/-- **A run in which all that comes from outside is typed leaves a typed workshop, and all that is
done in it is typed.** -/
theorem Conducted.typed (hS : S.Allows) (h : Conducted S budget Γ s roots record t)
    (hs : s.Typed S Γ) (honce : S.defect .oneShot ∨ ∀ p ∈ record, p.2.IsFirst) :
    ∃ Γ', Γ ≤ Γ' ∧ t.Typed S Γ' ∧ (∀ p ∈ roots, Γ'.fibers p.1.raw = some p.2) ∧
      ∀ p ∈ record, p.2.Typed S Γ' p.1 := by
  induction h with
  | @rest Γ s => exact ⟨Γ, le_rfl, hs, nofun, nofun⟩
  | move hc hmakes _ ih =>
    obtain ⟨Γ₁, h₁, hs₁, hroots₁, hknows, hevents₁⟩ := hmakes.typed hS hs hc
      (honce.imp_right fun hfirst p hp => hfirst p (List.mem_append_left _ hp))
    obtain ⟨Γ₂, h₂, hlast, hroots₂, hevents₂⟩ := ih Γ₁ h₁ hs₁ hroots₁ hknows hs₁
      (honce.imp_right fun hfirst p hp => hfirst p (List.mem_append_right _ hp))
    refine ⟨Γ₂, h₁.trans h₂, hlast, List.forall_mem_append.mpr ⟨fun p hp => ?_, hroots₂⟩,
      List.forall_mem_append.mpr ⟨fun p hp => (hevents₁ p hp).mono h₂, hevents₂⟩⟩
    exact h₂.fibers _ _ (hroots₁ p hp)

/-! ### What types tell of a run -/

/-- What types tell of a run, by what has been done in it and by what is left after it. -/
structure Conforms (S : Declarations) (Γ : Context) (roots : List (FiberId × Ending))
    (record : List (FiberId × Event)) (t : Workshop) : Prop where
  /-- A fiber that has been started from outside has been declared to end as its effect does. -/
  roots : ∀ p ∈ roots, Γ.fibers p.1.raw = some p.2
  /-- A value is of the type that is accepted by what is at the top of the continuation stack. -/
  value : ∀ {f w run v}, (f, Event.iterated w run (.value v)) ∈ record →
    ∃ root σ, Γ.fibers f.raw = some root ∧ run.Accepts S Γ root σ ∧ v.HasTy S Γ σ.value
  /-- The failures of a halt are, in all of its causes, of the type that is accepted there. -/
  failure : ∀ {f w run h}, (f, Event.iterated w run (.halt h)) ∈ record →
    ∃ root σ, Γ.fibers f.raw = some root ∧ run.Accepts S Γ root σ ∧
      ∀ e, .fail e ∈ h.leaves → e.type = σ.error ∧ e.value.HasTy S Γ (S.payload σ.error)
  /-- Its defects are allowed. -/
  defect : ∀ {f w run h d}, (f, Event.iterated w run (.halt h)) ∈ record →
    .die d ∈ h.leaves → S.defect d
  /-- A fiber ends with a value, or with failures, of the types that have been declared. -/
  ended : ∀ {f o}, Ended record f o →
    ∃ root, Γ.fibers f.raw = some root ∧ Outcome.Fits S Γ root o
  /-- So do the exits that are reported. -/
  report : ∀ p ∈ t.world.store.reports,
    ∃ root, Γ.fibers p.1.raw = some root ∧ p.2.Fits S Γ root.error root.value

/-- A fiber that ends does so as the rest of it accepts. -/
theorem ended_of_accepts {run : RunState} {step : Step} {pending : Option FiberId}
    {fiber : FiberId} {o : Outcome} {root : Ending} {σ : Signature} (hS : S.Allows)
    (hplan : step.plan pending fiber run = .finish o) (hrun : run.Accepts S Γ root σ)
    (hstep : step.Typed S Γ σ) : Outcome.Fits S Γ root o := by
  have hfinish : ∀ {plan : Plan}, plan = .finish o → plan.Typed S Γ root →
      Outcome.Fits S Γ root o := by
    rintro _ rfl hplan
    cases hplan with
    | finish ho => exact ho
  cases step with
  | eval i =>
    rcases hrun.planEval hstep fiber with htyped | ⟨mark, e, rfl, -⟩
    · exact hfinish hplan htyped
    · cases hplan
  | value v => exact hfinish hplan (hrun.planValue hstep)
  | halt h => exact hfinish hplan (hrun.planHalt hS hstep pending)
  | attempt cell f => cases hplan

/-- **What types tell of a run in which all that comes from outside is typed.** -/
theorem Conducted.conforms (hS : S.Allows) (h : Conducted S budget Γ s roots record t)
    (hs : s.Typed S Γ) (honce : S.defect .oneShot ∨ ∀ p ∈ record, p.2.IsFirst) :
    ∃ Γ', Conforms S Γ' roots record t := by
  obtain ⟨Γ', -, hlast, hroots, hevents⟩ := h.typed hS hs honce
  have hruns : ∀ {f w run step}, (f, Event.iterated w run step) ∈ record →
      Runs S Γ' f run step := fun hmem => hevents _ hmem
  refine ⟨Γ', hroots, fun hmem => hruns hmem, fun hmem => ?_, fun hmem hd => ?_, ?_,
    hlast.world.store.reports⟩
  · obtain ⟨root, σ, hroot, hrun, hhalt⟩ := hruns hmem
    exact ⟨root, σ, hroot, hrun, fun e he => ⟨(hhalt _ he).type, (hhalt _ he).value⟩⟩
  · obtain ⟨root, σ, -, -, hhalt⟩ := hruns hmem
    exact hhalt _ hd
  · rintro f o ⟨w, run, step, hmem, hplan⟩
    obtain ⟨root, σ, hroot, hrun, hstep⟩ := hruns hmem
    exact ⟨root, hroot, ended_of_accepts hS hplan hrun hstep⟩

/-! ### The machine -/

/-- A move of the machine brings nothing from outside. -/
theorem Conducted.step {awaited : Option FiberId} {m m' : Machine}
    (h : m.step? awaited = some m')
    (hrest : ∀ Γ', Γ ≤ Γ' → Conducted S m.budget Γ' m'.workshop roots record t) :
    Conducted S m.budget Γ m.workshop roots (m.doings ++ record) t := by
  obtain ⟨choice, hinner, hmakes⟩ := Makes.of_step h
  rcases hinner with rfl | rfl | rfl
  · exact .move (.pick 0) hmakes fun Γ' hle _ _ _ => hrest Γ' hle
  · exact .move (.advance 0) hmakes fun Γ' hle _ _ _ => hrest Γ' hle
  · exact .move .ring hmakes fun Γ' hle _ _ _ => hrest Γ' hle

/-- Nor do moves in a row. -/
theorem Conducted.moves (awaited : Option FiberId) (n : Nat) (m : Machine)
    (hrest : ∀ Γ', Γ ≤ Γ' →
      Conducted S m.budget Γ' (m.moves awaited n).workshop roots record t) :
    Conducted S m.budget Γ m.workshop roots (m.record awaited n ++ record) t := by
  induction n generalizing m Γ with
  | zero => exact hrest Γ le_rfl
  | succ n ih =>
    simp only [Machine.moves, Machine.record] at hrest ⊢
    cases h : m.step? awaited with
    | none =>
      rw [h] at hrest
      exact hrest Γ le_rfl
    | some m' =>
      rw [h] at hrest
      rw [List.append_assoc]
      refine Conducted.step h fun Γ₁ h₁ => ?_
      rw [← Machine.budget_step? h] at hrest ⊢
      exact ih m' fun Γ₂ h₂ => hrest Γ₂ (h₁.trans h₂)

/-- **A typed effect is run by the machine and asked to stop after some moves**, and nothing else
comes from outside. -/
theorem conducted_asked {i : Instruction} {σ : Signature} (hi : i.Typed S .empty σ)
    (henv : σ.env = .unit) (n m : Nat) :
    Conducted S 16 .empty (init 0) [(⟨1⟩, σ.ending)] (recordAsked i n m) (afterAsked i n m) := by
  have hunit : Value.unit.HasTy S .empty σ.env := henv ▸ .unit
  have hbegun : (begun i n).budget = 16 := by
    rw [begun, Machine.budget_moves]
    rfl
  have hlast : ∀ Γ, Conducted S 16 Γ (begun i n).workshop [] ((asked i n).record none m)
      (afterAsked i n m) := by
    intro Γ
    refine .move (.interrupt ⟨1⟩ ⟨0⟩) (.interrupt ⟨1⟩ ⟨0⟩) fun Γ' _ _ _ _ => ?_
    have hmoves := @Conducted.moves S Γ' _ _ [] none m (asked i n) fun _ _ => .rest
    rw [List.append_nil] at hmoves
    exact hbegun ▸ hmoves
  have hfirst : ∀ Γ, Conducted S 16 Γ (begun i 0).workshop [] (recordAsked i n m)
      (afterAsked i n m) := fun Γ => Conducted.moves none n (begun i 0) fun Γ' _ => hlast Γ'
  have hchoice : Choice.Typed S .empty (init 0).world (.start i .unit none)
      [(⟨1⟩, σ.ending)] fun _ => True := .start hi hunit (by simp)
  have hstart : Makes 16 (.start i .unit none) (init 0) [] (begun i 0).workshop :=
    .start i .unit none
  have hrun := Conducted.move hchoice hstart fun Γ _ _ _ _ => hfirst Γ
  exact hrun

end Workshop

/-! ### Mismatches -/

/-- The defect tells that something is not of the type expected. -/
def Defect.IsMismatch (d : Defect) : Prop :=
  ∃ expected, d = .mismatch "value" expected ∨ d = .mismatch "failure" expected

/-- A mismatch is known by how its message begins. -/
theorem Defect.IsMismatch.start {message : String} (h : (Defect.runtime message).IsMismatch) :
    message.toList.take 6 = ['v', 'a', 'l', 'u', 'e', ' '] ∨
      message.toList.take 6 = ['f', 'a', 'i', 'l', 'u', 'r'] := by
  obtain ⟨expected, h | h⟩ := h
  · obtain rfl : message = _ := (Defect.mk.inj h).2
    exact Or.inl (by simp [toString])
  · obtain rfl : message = _ := (Defect.mk.inj h).2
    exact Or.inr (by simp [toString])

namespace Declarations

/-- The same declarations, with every defect allowed but a mismatch. -/
def matching (S : Declarations) : Declarations := { S with defect := fun d => ¬ d.IsMismatch }

/-- The runtime reports many things, but no mismatch by itself. -/
theorem allows_matching (S : Declarations) : S.matching.Allows where
  explicit message := by rintro ⟨_, h | h⟩ <;> cases h
  panic payload := by rintro ⟨_, h | h⟩ <;> cases h
  taken names fiber h := by simpa [toString] using h.start
  missing names fiber h := by simpa [toString, FiberNames.display] using h.start
  twice h := by simpa using h.start
  skipped h := by simpa using h.start
  held source target h := by simpa [toString] using h.start
  succeeded h := by simpa using h.start

end Declarations

namespace Workshop

/-- **Types are sound.**  Of a run in which all that comes from outside is typed, from a workshop in
which nothing has been started, types can be told such that every value and every failure is of the
type that is accepted by what is at the top of the continuation stack, and every fiber ends as has
been declared; and nothing is found to be of another type than expected. -/
theorem Conducted.type_sound (h : Conducted S.matching budget .empty (init minted) roots record t) :
    (∃ Γ, Conforms S.matching Γ roots record t) ∧
      ∀ {f w run halt d}, (f, Event.iterated w run (.halt halt)) ∈ record →
        .die d ∈ halt.leaves → ¬ d.IsMismatch := by
  have hone : S.matching.defect .oneShot := fun h => by simpa using h.start
  obtain ⟨Γ, hconforms⟩ := h.conforms S.allows_matching (typed_init minted) (Or.inl hone)
  exact ⟨⟨Γ, hconforms⟩, fun hmem hd => hconforms.defect hmem hd⟩

/-! ### A handler that is passed by -/

/-- Failures of one type say a number, all others a text. -/
def spoken : Declarations where
  payload type := if type = ⟨"u8"⟩ then .int else .text
  named _ := ⟨⟨"u8"⟩, .unit⟩
  defect _ := True

/-- A failure in a region in which interruption is not allowed, and outside of it a handler that has
failures of another type. -/
def passedBy : Effect ⟨"u8"⟩ :=
  (Effect.fail (.text "boom") : Effect ⟨"String"⟩).uninterruptible.catchFailure
    fun _ => pure (Effect.succeed (.int 0))

theorem typed_passedBy : passedBy.Typed spoken.matching .empty .unit .int :=
  .catchFailure spoken.allows_matching (Effect.Typed.fail (.text "boom")).uninterruptible
    fun _ _ _ _ => .done (Effect.Typed.succeed (.int 0))

/-- The handler is passed by for an interruption, and its failure becomes a defect, but no
mismatch. -/
theorem Conducted.type_sound_passedBy :
    ((((afterAsked passedBy 3 20).world.store.fiber? ⟨1⟩).bind FiberRecord.exit).map fun
        | .done _ => []
        | .halt h => h.cause.defects) =
          some [.runtime "typed failure discarded: its handler was skipped by interruption"] ∧
      Conducted spoken.matching 16 .empty (init 0) [(⟨1⟩, ⟨⟨"u8"⟩, .int⟩)]
        (recordAsked passedBy 3 20) (afterAsked passedBy 3 20) ∧
      (∃ Γ, Conforms spoken.matching Γ [(⟨1⟩, ⟨⟨"u8"⟩, .int⟩)] (recordAsked passedBy 3 20)
        (afterAsked passedBy 3 20)) ∧
      ∀ {f w run halt d}, (f, Event.iterated w run (.halt halt)) ∈ recordAsked passedBy 3 20 →
        .die d ∈ halt.leaves → ¬ d.IsMismatch :=
  have hrun : Conducted spoken.matching 16 .empty (init 0) [(⟨1⟩, ⟨⟨"u8"⟩, .int⟩)]
      (recordAsked passedBy 3 20) (afterAsked passedBy 3 20) :=
    conducted_asked typed_passedBy rfl 3 20
  ⟨by decide +kernel, hrun, Conducted.type_sound hrun⟩

end Workshop

end Fibers
