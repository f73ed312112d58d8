import Fibers.Proofs.EffectStories

/-!
# What is held and how it is released

What has been acquired has to be released.  A hold says how what is held has been put together of
parts each of which is released by code of the program.  The table of releases has an entry for it
and for each of its parts, and no entry is forgotten, so what is built for the release of a hold
follows the hold.

`Hold.Releases` tells the release of a hold as a story.  The code of the innermost parts is called
at once, and what it builds is evaluated; what is outside is called after that, whatever has become
of what is inside; parts that have been acquired at once are released by two fibers.

## Main definitions

* `Hold` — what is held, and how it has been put together.
* `Hold.leaves` — the parts that code releases.
* `Hold.Kept` — the table of releases has what is needed.
* `Hold.Releases` — the stories of a release.

## Main results

* `Hold.builds_buildRelease` — what is built follows the hold.
* `Workshop.Tells.releases` — **what is told of the release of a hold.**
-/

namespace Fibers

/-! ### Code that does not panic -/

/-- The code does not panic. -/
def Action.Calm {α : Type} (code : Action α) : Prop := ∀ w, ∃ a, (code.run w).1 = .ok a

theorem Action.Calm.pure {α : Type} (a : α) : (pure a : Action α).Calm := fun _ => ⟨a, rfl⟩

/-- Entries have numbers below the next one. -/
theorem Numbered.lt_next_of_get? {α : Type} {t : Numbered α} {n : Nat} {a : α}
    (h : t.get? n = some a) : n < t.next := by
  unfold get? at h
  split at h
  · next hle =>
    have := (Array.getElem?_eq_some_iff.mp h).1
    unfold next
    omega
  · cases h

/-! ### Holds -/

/-- What is held, and how it has been put together. -/
inductive Hold where
  /-- Released by code of the program. -/
  | single (id : ReleaseId) (build : Exit Value Value → Action Instruction)
  /-- Released inside out. -/
  | nested (id : ReleaseId) (type : ErrorType) (inner outer : Hold)
  /-- Released at once. -/
  | both (id : ReleaseId) (type : ErrorType) (left right : Hold)
  /-- Released in an environment that is made of the one around. -/
  | within (id : ReleaseId) (environment : Value → Action Value)
      (calm : ∀ v, (environment v).Calm) (inner : Hold)

namespace Hold

/-- The release of the whole. -/
def id : Hold → ReleaseId
  | .single id _ | .nested id _ _ _ | .both id _ _ _ | .within id _ _ _ => id

/-- The parts that code releases, in the order in which they have been acquired. -/
def leaves : Hold → List (ReleaseId × (Exit Value Value → Action Instruction))
  | .single id build => [(id, build)]
  | .nested _ _ inner outer => outer.leaves ++ inner.leaves
  | .both _ _ left right => left.leaves ++ right.leaves
  | .within _ _ _ inner => inner.leaves

/-- The parts whose code is called at once when the release is built. -/
def first : Hold → List ReleaseId
  | .single id _ => [id]
  | .nested _ _ inner _ => inner.first
  | .both _ _ left right => left.first ++ right.first
  | .within _ _ _ inner => inner.first

/-- The table of releases has an entry for the whole and for each part. -/
def Kept (w : World) : Hold → Prop
  | .single id build => w.releases.get? id.index = some (.code build)
  | .nested id type inner outer =>
    w.releases.get? id.index = some (.nested type inner.id outer.id) ∧
      inner.id.index < id.index ∧ inner.Kept w ∧ outer.Kept w
  | .both id type left right =>
    w.releases.get? id.index = some (.both type left.id right.id) ∧
      (left.id.index < id.index ∧ right.id.index < id.index) ∧ left.Kept w ∧ right.Kept w
  | .within id environment _ inner =>
    w.releases.get? id.index = some (.within environment inner.id) ∧
      inner.id.index < id.index ∧ inner.Kept w

variable {hold inner outer left right : Hold} {w w' : World} {x : Exit Value Value}

theorem Kept.congr (h : hold.Kept w) (hsame : w'.releases = w.releases) : hold.Kept w' := by
  induction hold with
  | single id build =>
    unfold Kept
    rwa [hsame]
  | nested id type inner outer ihi iho =>
    obtain ⟨hentry, hlt, hinner, houter⟩ := h
    exact ⟨hsame ▸ hentry, hlt, ihi hinner, iho houter⟩
  | both id type left right ihl ihr =>
    obtain ⟨hentry, hlt, hleft, hright⟩ := h
    exact ⟨hsame ▸ hentry, hlt, ihl hleft, ihr hright⟩
  | within id environment calm inner ih =>
    obtain ⟨hentry, hlt, hinner⟩ := h
    exact ⟨hsame ▸ hentry, hlt, ih hinner⟩

/-- What is kept is younger than what is made later. -/
theorem Kept.lt_next (h : hold.Kept w) : hold.id.index < w.releases.next := by
  cases hold with
  | single id build => exact Numbered.lt_next_of_get? h
  | nested _ _ _ _ | both _ _ _ _ | within _ _ _ _ => exact Numbered.lt_next_of_get? h.1

/-- The code that is called at once is that of the innermost parts. -/
theorem Kept.outset (h : hold.Kept w) : w.outset hold.id = hold.first := by
  induction hold with
  | single id build =>
    change w.outset id = [id]
    rw [World.outset, show w.releases.get? id.index = _ from h]
  | nested id type inner outer ihi _ =>
    obtain ⟨hentry, hlt, hinner, -⟩ := h
    change w.outset id = inner.first
    rw [World.outset, hentry]
    exact (if_pos hlt).trans (ihi hinner)
  | both id type left right ihl ihr =>
    obtain ⟨hentry, hlt, hleft, hright⟩ := h
    change w.outset id = left.first ++ right.first
    rw [World.outset, hentry, ← ihl hleft, ← ihr hright]
    exact if_pos hlt
  | within id environment calm inner ih =>
    obtain ⟨hentry, hlt, hinner⟩ := h
    change w.outset id = inner.first
    rw [World.outset, hentry]
    exact (if_pos hlt).trans (ih hinner)

/-! ### What is built -/

/-- What may be built for the release of a hold. -/
inductive Builds (x : Exit Value Value) : Hold → Except Defect Instruction → Prop where
  | single {id : ReleaseId} {build : Exit Value Value → Action Instruction} (w : World) :
      Builds x (.single id build) ((build x).run w).1
  | nested {id : ReleaseId} {type : ErrorType} {inner outer : Hold}
      {b : Except Defect Instruction} : Builds x inner b →
      Builds x (.nested id type inner outer)
        (.ok (Release.insideOut (Release.part b) outer.id x : Effect type))
  | both {id : ReleaseId} {type : ErrorType} {left right : Hold}
      {b b' : Except Defect Instruction} : Builds x left b → Builds x right b' →
      Builds x (.both id type left right)
        (.ok (Release.atOnce (Release.part b) (Release.part b') : Effect type))
  | within {id : ReleaseId} {environment : Value → Action Value}
      {calm : ∀ v, (environment v).Calm} {inner : Hold} {b : Except Defect Instruction} :
      Builds x inner b → Builds x (.within id environment calm inner) (b.map fun i =>
        .access fun outer => do
          let v ← environment outer
          pure (.provide v i))

/-- **What is built follows the hold.** -/
theorem builds_buildRelease (h : hold.Kept w) (x : Exit Value Value) :
    hold.Builds x (w.buildRelease hold.id x).1 := by
  induction hold generalizing w with
  | single id build =>
    change Builds x _ (w.buildRelease id x).1
    rw [World.buildRelease_code h]
    exact .single w
  | nested id type inner outer ihi _ =>
    obtain ⟨hentry, hlt, hinner, -⟩ := h
    change Builds x _ (w.buildRelease id x).1
    rw [World.buildRelease, hentry]
    simp only [if_pos hlt]
    exact .nested (ihi hinner)
  | both id type left right ihl ihr =>
    obtain ⟨hentry, hlt, hleft, hright⟩ := h
    change Builds x _ (w.buildRelease id x).1
    rw [World.buildRelease, hentry]
    simp only [if_pos hlt]
    exact .both (ihl hleft) (ihr (hright.congr (World.releases_buildRelease _ _ _)))
  | within id environment calm inner ih =>
    obtain ⟨hentry, hlt, hinner⟩ := h
    have hbuilds := ih hinner
    change Builds x _ (w.buildRelease id x).1
    rw [World.buildRelease, hentry]
    simp only [if_pos hlt]
    obtain ⟨b, w', heq⟩ : ∃ b w', w.buildRelease inner.id x = (b, w') := ⟨_, _, rfl⟩
    rw [heq] at hbuilds ⊢
    cases b with
    | ok i => exact .within hbuilds
    | error d => exact .within hbuilds

/-! ### Stories of a release -/

/-- The code of the innermost parts is called. -/
def calls (hold : Hold) (fiber : FiberId) (x : Exit Value Value) : Story :=
  hold.first.map fun id => (fiber, .called id x)

/-- The stories of what has been built for a release. -/
inductive Runs (x : Exit Value Value) : FiberId → Hold → Story → Prop where
  | single {f : FiberId} {id : ReleaseId} {build : Exit Value Value → Action Instruction} {w : World}
      {i : Instruction} {o : Outcome} : ((build x).run w).1 = .ok i →
      Runs x f (.single id build) [(f, .ran i o)]
  | panicked {f : FiberId} {id : ReleaseId} {build : Exit Value Value → Action Instruction}
      {w : World} {d : Defect} : ((build x).run w).1 = .error d → Runs x f (.single id build) []
  | nested {f : FiberId} {id : ReleaseId} {type : ErrorType} {inner outer : Hold} {st st' : Story} :
      Runs x f inner st → Runs x f outer st' →
      Runs x f (.nested id type inner outer) (st ++ (outer.calls f x ++ st'))
  | both {f l r : FiberId} {id : ReleaseId} {type : ErrorType} {left right : Hold}
      {st st' : Story} : Runs x l left st → Runs x r right st' →
      Runs x f (.both id type left right) ((f, .started l) :: (st ++ (f, .started r) :: st'))
  | within {f : FiberId} {id : ReleaseId} {environment : Value → Action Value}
      {calm : ∀ v, (environment v).Calm} {inner : Hold} {st : Story} :
      Runs x f inner st → Runs x f (.within id environment calm inner) st

/-- The stories of a release. -/
def Releases (hold : Hold) (x : Exit Value Value) (f : FiberId) (st : Story) : Prop :=
  ∃ st', Runs x f hold st' ∧ st = hold.calls f x ++ st'

/-- Code that has panicked has nothing more to tell. -/
theorem Builds.runs_of_error {d : Defect} (h : hold.Builds x (.error d)) (f : FiberId) :
    Runs x f hold [] := by
  generalize hb : (Except.error d : Except Defect Instruction) = b at h
  induction h with
  | single w => exact .panicked hb.symm
  | nested _ | both _ _ => cases hb
  | @within _ _ _ _ b _ ih =>
    cases b with
    | ok i => cases hb
    | error d' => exact .within (ih hb)

end Hold

/-! ### What is told of a release -/

namespace Workshop

variable {budget minted : Nat} {s : Workshop} {record : List (FiberId × Event)}

theorem Lasting.and {P P' : World → Prop} (h : Lasting P) (h' : Lasting P') :
    Lasting fun w => P w ∧ P' w :=
  fun _ _ _ _ hvalid hmove hw => ⟨h hvalid hmove hw.1, h' hvalid hmove hw.2⟩

theorem lasting_const (p : Prop) : Lasting fun _ => p := fun _ _ _ _ _ _ h => h

theorem lasting_kept (hold : Hold) : Lasting hold.Kept := by
  induction hold with
  | single id build => exact lasting_release _ _
  | nested id type inner outer ihi iho =>
    exact (lasting_release _ _).and ((lasting_const _).and (ihi.and iho))
  | both id type left right ihl ihr =>
    exact (lasting_release _ _).and ((lasting_const _).and (ihl.and ihr))
  | within id environment calm inner ih =>
    exact (lasting_release _ _).and ((lasting_const _).and ih)

namespace Tells

variable {fiber : FiberId} {n : Nat} {run : RunState} {x : Exit Value Value} {hold : Hold}

/-- The exits of two releases are merged, and that is all. -/
theorem yields_mergeExits {ε : ErrorType} (v : Value) :
    Settles.Yields (Effect.expecting (fun exits : List Value =>
      (pure (Release.mergeExits exits) : Action (Effect ε))) v) fun _ => True := by
  unfold Effect.expecting
  cases (Carried.ofValue? v : Option (List Value)) with
  | none => exact Settles.yields_pure trivial
  | some exits =>
    change Settles.Yields (pure (Release.mergeExits exits) : Action (Effect ε)) _
    unfold Release.mergeExits
    split <;> exact Settles.yields_pure trivial

/-- A release calls the code of the innermost parts, and what is built is evaluated. -/
theorem release_of_runs (hfalse : run.interruptible = false) (hkept : Finds record fiber n hold.Kept)
    (h : ∀ b, hold.Builds x b → Tells s record fiber n run
      (.active run (.eval (Release.part b))) fun _ st _ => hold.Runs x fiber st) :
    Tells s record fiber n run (.active run (.eval (.release hold.id x))) fun _ st _ =>
      hold.Releases x fiber st := by
  refine release hfalse fun w k hk hget => ?_
  have hthere := hkept hk hget
  have hbuilds := Hold.builds_buildRelease hthere x
  have hcalls : (w.calls hold.id x).map (fiber, ·) = hold.calls fiber x := by
    rw [World.calls, hthere.outset, Hold.calls, List.map_map]
    rfl
  rw [hcalls]
  cases hb : (w.buildRelease hold.id x).1 with
  | ok i =>
    rw [hb] at hbuilds
    exact (h _ hbuilds).mono fun o st m _ hst => ⟨st, hst, rfl⟩
  | error d =>
    rw [hb] at hbuilds
    exact @handed _ _ _ _ _ _ (.die d) ⟨[], hbuilds.runs_of_error fiber, rfl⟩

/-- What has been built for the release of a hold is evaluated. -/
theorem runs (hrun : Run budget (init minted) record s) {b : Except Defect Instruction}
    (hbuilds : hold.Builds x b) (hfalse : run.interruptible = false)
    (hkept : Finds record fiber n hold.Kept) :
    Tells s record fiber n run (.active run (.eval (Release.part b))) fun _ st _ =>
      hold.Runs x fiber st := by
  induction hold generalizing fiber n run b with
  | single id build =>
    cases hbuilds with
    | single w =>
      cases hcode : ((build x).run w).1 with
      | ok i => exact code hfalse fun o => .single hcode
      | error d => exact done hfalse (.panicked hcode)
  | nested id type inner outer ihi iho =>
    have hinner : Finds record fiber n inner.Kept := hkept.imp fun w h => h.2.2.1
    have houter : Finds record fiber n outer.Kept := hkept.imp fun w h => h.2.2.2
    cases hbuilds with
    | @nested _ _ _ _ b hb =>
      -- whatever becomes of what is inside, what is outside is released after it
      refine chain_result (P := fun _ st _ => inner.Runs x fiber st) hfalse
        (fun r hr => ihi hb hr hinner) fun o st m hm hst w => ?_
      refine (finishWith hfalse fun r hr => release_of_runs hr (houter.mono hm) fun b hb =>
        iho hb hr (houter.mono hm)).mono ?_
      rintro o' st' m' - ⟨o'', ⟨st'', hst'', rfl⟩, rfl⟩
      exact .nested hst hst''
  | both id type left right ihl ihr =>
    have hleft : Finds record fiber n left.Kept := hkept.imp fun w h => h.2.2.1
    have hright : Finds record fiber n right.Kept := hkept.imp fun w h => h.2.2.2
    cases hbuilds with
    | @both _ _ _ _ b b' hb hb' =>
      refine chain (P := fun _ st _ => (Hold.both id type left right).Runs x fiber st) hfalse
        (zipPar (L := fun c _ st _ => left.Runs x c st) (R := fun c _ st _ => right.Runs x c st)
          hrun hfalse (fun c environment hfinds => ?_) (fun c environment hfinds => ?_) ?_) ?_ ?_
      · refine region_inner rfl ((result rfl fun r hr =>
          ihl hb hr (hfinds (lasting_kept left) hleft)).mono ?_)
        rintro o st m - ⟨o', hst, -⟩
        exact hst
      · refine region_inner rfl ((result rfl fun r hr =>
          ihr hb' hr (hfinds (lasting_kept right) hright)).mono ?_)
        rintro o st m - ⟨o', hst, -⟩
        exact hst
      · intro _ _ o l r st₁ st₂ m hm hchild₁ hchild₂ hfinished₁ hfinished₂
        obtain ⟨-, -, -, hst₁, -⟩ := hchild₁.ended hfinished₁
        obtain ⟨-, -, -, hst₂, -⟩ := hchild₂.ended hfinished₂
        exact .both hst₁ hst₂
      · intro v st m hm hst w
        refine yields hfalse (yields_mergeExits v) (fun o => ?_) w
        rwa [List.append_nil]
      · exact fun h st m _ hst => hst
  | within id environment calm inner ih =>
    have hinner : Finds record fiber n inner.Kept := hkept.imp fun w h => h.2.2
    cases hbuilds with
    | @within _ _ _ _ b hb =>
      cases b with
      | ok i =>
        refine access hfalse fun w => built_bind (fun v _ => ?_) fun d hd => ?_
        · have hinside : Tells s record fiber n (run.enterEnvironment v)
              (.active (run.enterEnvironment v) (.eval i)) fun _ st _ => inner.Runs x fiber st :=
            ih hb hfalse hinner
          exact provide hfalse (hinside.mono fun o st m _ hst => .within hst)
        · obtain ⟨v, hv⟩ := calm run.environment w
          rw [hd] at hv
          cases hv
      | error d => exact done hfalse (.within (hb.runs_of_error fiber))

/-- **The release of a hold.** -/
theorem releases (hrun : Run budget (init minted) record s) (hfalse : run.interruptible = false)
    (hkept : Finds record fiber n hold.Kept) :
    Tells s record fiber n run (.active run (.eval (.release hold.id x))) fun _ st _ =>
      hold.Releases x fiber st :=
  release_of_runs hfalse hkept fun _ hb => runs hrun hb hfalse hkept

end Tells

end Workshop

end Fibers
