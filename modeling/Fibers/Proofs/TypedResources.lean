import Fibers.Proofs.TypedEffects
import Fibers.Resource

/-!
# Typing rules for effects at once and for resources

Effects that run others on child fibers are put together from typed parts, and so are resources.
Where they read what they wait for, the types say that it is there: the exits of the children, the
position of a child that has failed, the exits of two releases.

## Main results

* `Effect.Typed.raceFold`, `Effect.Typed.zipParWith`, `Effect.Typed.race`, `Effect.Typed.timeout`,
  `Effect.Typed.collectAllPar` — effects at once.
* `Resource.Typed.use`, `Resource.Typed.allocate`, `Resource.Typed.chain`,
  `Resource.Typed.parZipWith` and the other rules for resources.
-/

namespace Fibers

variable {S : Declarations} {Γ : Context} {ρ ρ' τ τ' τ'' : Ty} {ε ε' ε₁ ε₂ : ErrorType}

/-- A fiber that ends in a way. -/
abbrev Fiber.Ends (Γ : Context) (τ : Ty) (f : Fiber ε) : Prop :=
  Γ.fibers f.id.raw = some ⟨ε, τ⟩

/-- A failure with what happened to the other side. -/
theorem Halt.Holds.keepSibling {h : Halt Value} {x : Exit Value Value} (hh : h.Says S Γ ε)
    (hx : x.Fits S Γ ε τ) : (h.keepSibling x).Says S Γ ε := by
  unfold Halt.keepSibling
  split
  · split
    · exact hh
    · exact hh.append hx
  · exact hh

namespace Effect.Typed

variable {e : Effect ε}

/-! ### The race -/

theorem awaitOrInterrupt {f : Fiber ε} (hf : f.Ends Γ τ) :
    (f.awaitOrInterrupt : Effect ε').Typed S Γ ρ (.exit ε τ) :=
  onInterrupt (awaitExit hf) <| suspend fun _ hle =>
    .done (asUnit (interruptFiber (hle.fibers _ _ hf)))

theorem firstDone {left : Fiber ε} {right : Fiber ε₁} (hl : left.Ends Γ τ)
    (hr : right.Ends Γ τ') : (Effect.firstDone left right : Effect ε₂).Typed S Γ ρ .bool :=
  Instruction.Typed.wait (.firstDone ε₂ hl hr)

theorem abandonRace {left : Fiber ε} {right : Fiber ε₁} {h : Halt Value} (hl : left.Ends Γ τ)
    (hr : right.Ends Γ τ') (hh : h.Says S Γ ε₂) :
    (Effect.abandonRace left right h : Effect ε₂).Typed S Γ ρ τ'' := by
  have hboth : (left.signal.zipRight right.signal : Effect ε₂).Typed S Γ ρ .unit :=
    zipRight (signal left) (signal right)
  exact chain (zipRight (zipRight hboth (awaitExit hl)) (awaitExit hr)) fun _ hle _ _ =>
    .done (halt (Halt.Says.mono hle hh))

theorem settleRace {restore : Restore} {left : Fiber ε} {right : Fiber ε₁}
    {onLeft : Exit Value Value → Fiber ε₁ → Action (Effect ε₂)}
    {onRight : Exit Value Value → Fiber ε → Action (Effect ε₂)} (hl : left.Ends Γ τ)
    (hr : right.Ends Γ τ')
    (honLeft : ∀ Γ', Γ ≤ Γ' → ∀ x, x.Fits S Γ' ε τ → Describes S Γ' ρ τ'' (onLeft x right))
    (honRight : ∀ Γ', Γ ≤ Γ' → ∀ x, x.Fits S Γ' ε₁ τ' → Describes S Γ' ρ τ'' (onRight x left))
    (leftFirst : Bool) :
    (Effect.settleRace restore left right onLeft onRight leftFirst).Typed S Γ ρ τ'' := by
  unfold Effect.settleRace
  split
  · exact chainAs (awaitExit hl) reads_exit fun Γ' hle x hx =>
      (honLeft Γ' hle x hx).bind fun _ _ _ hhandled => .done (restored hhandled restore)
  · exact chainAs (awaitExit hr) reads_exit fun Γ' hle x hx =>
      (honRight Γ' hle x hx).bind fun _ _ _ hhandled => .done (restored hhandled restore)

theorem raceFold {left : Effect ε} {right : Effect ε₁}
    {onLeft : Exit Value Value → Fiber ε₁ → Action (Effect ε₂)}
    {onRight : Exit Value Value → Fiber ε → Action (Effect ε₂)}
    (hleft : left.Typed S Γ ρ τ) (hright : right.Typed S Γ ρ τ')
    (honLeft : ∀ Γ', Γ ≤ Γ' → ∀ x (other : Fiber ε₁), x.Fits S Γ' ε τ → other.Ends Γ' τ' →
      Describes S Γ' ρ τ'' (onLeft x other))
    (honRight : ∀ Γ', Γ ≤ Γ' → ∀ x (other : Fiber ε), x.Fits S Γ' ε₁ τ' → other.Ends Γ' τ →
      Describes S Γ' ρ τ'' (onRight x other)) :
    (Effect.raceFold left right onLeft onRight).Typed S Γ ρ τ'' := by
  refine mask fun Γ₁ h₁ restore => .done <|
    chainAs (fork (restored (hleft.mono h₁) restore)) reads_fiber fun Γ₂ h₂ l hl => .done <|
      chainAs (fork (restored (hright.mono (h₁.trans h₂)) restore)) reads_fiber
        fun Γ₃ h₃ r hr => .done <|
          foldHalt (restored (firstDone (h₃.fibers _ _ hl) hr) restore)
            (fun Γ₄ h₄ h hh => .done ?_) (.expecting reads_bool fun Γ₄ h₄ leftFirst _ => .done ?_)
  · exact abandonRace ((h₃.trans h₄).fibers _ _ hl) (h₄.fibers _ _ hr) hh
  · have hle : Γ ≤ Γ₄ := h₁.trans (h₂.trans (h₃.trans h₄))
    have hl₄ : l.Ends Γ₄ τ := (h₃.trans h₄).fibers _ _ hl
    have hr₄ : r.Ends Γ₄ τ' := h₄.fibers _ _ hr
    exact settleRace hl₄ hr₄
      (fun Γ' hle' x hx => honLeft Γ' (hle.trans hle') x r hx (hle'.fibers _ _ hr₄))
      (fun Γ' hle' x hx => honRight Γ' (hle.trans hle') x l hx (hle'.fibers _ _ hl₄)) leftFirst

/-! ### Both values -/

theorem finishPair {other : Fiber ε} {combine : Value → Action Value} (hother : other.Ends Γ τ)
    (hcombine : Computes S Γ τ τ' combine) :
    (Effect.finishPair other combine : Effect ε).Typed S Γ ρ τ' := by
  refine chainAs (awaitOrInterrupt hother) reads_exit fun Γ' hle x hx => ?_
  cases x with
  | done v => exact (hcombine Γ' hle v hx).bind fun _ _ _ hv => .done (succeed hv)
  | halt h => exact .done (halt hx)

theorem zipParWith {left right : Effect ε} {f : Value → Value → Action Value}
    (hleft : left.Typed S Γ ρ τ) (hright : right.Typed S Γ ρ τ')
    (hf : ∀ Γ', Γ ≤ Γ' → ∀ a b, a.HasTy S Γ' τ → b.HasTy S Γ' τ' →
      (f a b).Safe S (Value.HasTy S) Γ' τ'') :
    (left.zipParWith right f).Typed S Γ ρ τ'' := by
  refine raceFold hleft hright (fun Γ₁ h₁ x other hx hother => ?_)
    fun Γ₁ h₁ x other hx hother => ?_
  · cases x with
    | done a =>
      exact .done <| finishPair hother fun Γ₂ h₂ b hb =>
        hf Γ₂ (h₁.trans h₂) a b (hx.mono h₂) hb
    | halt h =>
      exact .done <| chainAs (interruptFiber hother) reads_exit fun Γ₂ h₂ y hy =>
        .done (halt (Halt.Holds.keepSibling (Halt.Says.mono h₂ hx) hy))
  · cases x with
    | done b =>
      exact .done <| finishPair hother fun Γ₂ h₂ a ha =>
        hf Γ₂ (h₁.trans h₂) a b ha (hx.mono h₂)
    | halt h =>
      refine .done <| chainAs (interruptFiber hother) reads_exit fun Γ₂ h₂ y hy => ?_
      have hh : h.Says S Γ₂ ε := Halt.Says.mono h₂ hx
      cases y with
      | done a => exact .done (halt hh)
      | halt first =>
        refine .done (halt ?_)
        split
        · exact hh
        · exact Halt.Holds.append hy hh

theorem zipPar {left right : Effect ε} (hleft : left.Typed S Γ ρ τ)
    (hright : right.Typed S Γ ρ τ') : (left.zipPar right).Typed S Γ ρ (.pair τ τ') :=
  hleft.zipParWith hright fun _ _ _ _ ha hb => .done (.pair ha hb)

/-! ### The first success, and a limit on the time -/

theorem bothFailed {first second : Halt Value} (hfirst : first.Says S Γ ε)
    (hsecond : second.Says S Γ ε) : (Effect.bothFailed first second).Says S Γ ε := by
  rw [Halt.Says, Halt.holds_iff] at hfirst hsecond ⊢
  intro c hc
  rcases List.mem_cons.mp hc with rfl | hmem
  · exact (hfirst _ List.mem_cons_self).alongside (hsecond _ List.mem_cons_self)
  · rcases List.mem_append.mp hmem with hmem | hmem
    · exact hfirst c (List.mem_cons_of_mem _ hmem)
    · exact hsecond c (List.mem_cons_of_mem _ hmem)

theorem raceSettle {x : Exit Value Value} {other : Fiber ε} (hx : x.Fits S Γ ε τ)
    (hother : other.Ends Γ τ) : (Effect.raceSettle x other).Typed S Γ ρ τ := by
  cases x with
  | done a => exact as (interruptFiber hother) hx
  | halt first =>
    refine chainAs (awaitOrInterrupt hother) reads_exit fun Γ' hle y hy => ?_
    cases y with
    | done a => exact .done (succeed hy)
    | halt second => exact .done (halt (bothFailed (Halt.Says.mono hle hx) hy))

theorem race {left right : Effect ε} (hleft : left.Typed S Γ ρ τ)
    (hright : right.Typed S Γ ρ τ) : (left.race right).Typed S Γ ρ τ :=
  raceFold hleft hright (fun _ _ _ _ hx hother => .done (raceSettle hx hother))
    fun _ _ _ _ hx hother => .done (raceSettle hx hother)

theorem timeout (millis : Nat) (he : e.Typed S Γ ρ τ) :
    (e.timeout millis).Typed S Γ ρ (.option τ) := by
  refine raceFold he (sleep millis) (fun Γ₁ _ x timer hx htimer => .done ?_)
    fun Γ₁ _ x work hx hwork => .done ?_
  · exact chain (interruptFiber htimer) fun Γ₂ h₂ _ _ => .done <| ofExit <|
      Exit.Holds.map (Exit.Fits.mono h₂ hx) fun _ hv => .some hv
  · refine chain (interruptFiber hwork) fun Γ₂ h₂ _ _ => ?_
    cases x with
    | done _ => exact .done (succeed (.none τ))
    | halt h => exact .done (halt (Halt.Says.mono h₂ hx))

/-! ### Many effects at once -/

theorem interruptAll {fibers : List (Fiber ε)} (hfibers : ∀ f ∈ fibers, f.Ends Γ τ) :
    (Fiber.interruptAll fibers : Effect ε').Typed S Γ ρ (.list (.exit ε τ)) := by
  have hsignals : (Effect.collectAll (fibers.map fun f => (f.signal : Effect ε'))).Typed S Γ ρ
      (.list .unit) := by
    refine collectAll fun e he => ?_
    obtain ⟨f, -, rfl⟩ := List.mem_map.mp he
    exact signal f
  refine zipRight hsignals (collectAll fun e he => ?_)
  obtain ⟨f, hf, rfl⟩ := List.mem_map.mp he
  exact awaitExit (hfibers f hf)

theorem firstFailure {fibers : List (Fiber ε)} (hfibers : ∀ f ∈ fibers, f.Ends Γ τ) :
    (Effect.firstFailure fibers : Effect ε').Typed S Γ ρ (.option (.index fibers.length)) := by
  have hknown : ∀ c ∈ fibers.map Fiber.id, ∃ e, Γ.fibers c.raw = some e := by
    intro c hc
    obtain ⟨f, hf, rfl⟩ := List.mem_map.mp hc
    exact ⟨_, hfibers f hf⟩
  have hwait := Registration.Typed.firstFailure (S := S) ε' hknown
  rw [List.length_map] at hwait
  exact Instruction.Typed.wait hwait

/-- The children of a nursery. -/
theorem ends_childrenOf {values : List Value} (hvalues : ∀ v ∈ values, v.HasTy S Γ (.fiber ε τ)) :
    ∀ f ∈ (childrenOf values : List (Fiber ε)), f.Ends Γ τ := by
  intro f hf
  obtain ⟨v, hv, hread⟩ := List.mem_filterMap.mp hf
  obtain ⟨f', hread', hends⟩ := reads_fiber (hvalues v hv)
  exact Option.some.inj (hread'.symm.trans hread) ▸ hends

theorem fits_exitsOf {values : List Value} (hvalues : ∀ v ∈ values, v.HasTy S Γ (.exit ε τ)) :
    ∀ x ∈ exitsOf values, x.Fits S Γ ε τ := by
  intro x hx
  obtain ⟨v, hv, hread⟩ := List.mem_filterMap.mp hx
  obtain ⟨x', hread', hfits⟩ := reads_exit (hvalues v hv)
  exact Option.some.inj (hread'.symm.trans hread) ▸ hfits

theorem failureOf (hS : S.Allows) {x : Exit Value Value} (hx : x.Fits S Γ ε τ) :
    (Effect.failureOf x).Says S Γ ε := by
  cases x with
  | done _ => exact Halt.holds_of (Cause.holds_die hS.succeeded)
  | halt h => exact hx

theorem keepSiblings {exits : List (Exit Value Value)} {h : Halt Value} (hh : h.Says S Γ ε)
    (hexits : ∀ x ∈ exits, x.Fits S Γ ε τ) : (exits.foldl Halt.keepSibling h).Says S Γ ε := by
  induction exits generalizing h with
  | nil => exact hh
  | cons x exits ih =>
    obtain ⟨hx, hexits⟩ := List.forall_mem_cons.mp hexits
    exact ih (Halt.Holds.keepSibling hh hx) hexits

theorem failNursery (hS : S.Allows) {culprit : Fiber ε} {siblings : List (Fiber ε)}
    (hculprit : culprit.Ends Γ τ) (hsiblings : ∀ f ∈ siblings, f.Ends Γ τ) :
    (Effect.failNursery culprit siblings).Typed S Γ ρ τ' :=
  chainAs (interruptAll hsiblings) reads_list fun _ h₁ _ hexits => .done <|
    chainAs (awaitExit (h₁.fibers _ _ hculprit)) reads_exit fun _ h₂ _ hx => .done <| halt <|
      keepSiblings (failureOf hS hx) fun y hy => (fits_exitsOf hexits y hy).mono h₂

theorem settleNursery (hS : S.Allows) {children : List (Fiber ε)}
    (hchildren : ∀ f ∈ children, f.Ends Γ τ) {verdict : Value}
    (hverdict : verdict.HasTy S Γ (.option (.index children.length))) :
    (Effect.settleNursery children verdict).Typed S Γ ρ (.list τ) := by
  cases hverdict with
  | none _ =>
    refine collectAll fun e he => ?_
    obtain ⟨f, hf, rfl⟩ := List.mem_map.mp he
    exact adopt (hchildren f hf)
  | some hposition =>
    cases hposition with
    | @index n _ hn =>
      have hget : children[(n : Int).toNat]? = some children[n] := by
        rw [Int.toNat_natCast, List.getElem?_eq_getElem hn]
      simp only [Effect.settleNursery, hget]
      exact failNursery hS (hchildren _ (List.getElem_mem hn)) fun f hf =>
        hchildren f (List.mem_of_mem_eraseIdx hf)

theorem collectAllPar (hS : S.Allows) {es : List (Effect ε)}
    (hes : ∀ e ∈ es, Effect.Typed S Γ ρ τ e) :
    (Effect.collectAllPar es).Typed S Γ ρ (.list τ) := by
  unfold Effect.collectAllPar
  split
  · exact suspend fun _ _ => .done (succeed (.list nofun))
  · refine mask fun Γ₁ h₁ restore => .done ?_
    have hforks : (Effect.collectAll (es.map fun e => (restore.apply e).fork) :
        Effect ε).Typed S Γ₁ ρ (.list (.fiber ε τ)) := by
      refine collectAll fun e' he' => ?_
      obtain ⟨e, he, rfl⟩ := List.mem_map.mp he'
      exact fork (restored ((hes e he).mono h₁) restore)
    refine chainAs hforks reads_list fun Γ₂ h₂ forked hforked => .done ?_
    have hchildren := ends_childrenOf hforked
    refine foldHalt (restored (firstFailure hchildren) restore) (fun Γ₃ h₃ h hh => .done ?_)
      fun Γ₃ h₃ verdict hverdict => .done ?_
    · exact chain (interruptAll fun f hf => h₃.fibers _ _ (hchildren f hf)) fun _ h₄ _ _ =>
        .done (halt (Halt.Says.mono h₄ hh))
    · exact settleNursery hS (fun f hf => h₃.fibers _ _ (hchildren f hf)) hverdict

end Effect.Typed

/-! ### Releases -/

open Effect.Typed

namespace Release

theorem fits_withoutValue {x : Exit Value Value} (hx : x.Fits S Γ ε τ) :
    x.withoutValue.Fits S Γ ε .unit :=
  Exit.Holds.map hx fun _ _ => .unit

theorem typed_run {release : ReleaseId} {x : Exit Value Value}
    (hrelease : Γ.releases release.index = some (ρ, ε)) (hx : x.Fits S Γ ε .unit) :
    (release.run x : Effect ε).Typed S Γ ρ .unit :=
  Instruction.Typed.release hrelease hx

theorem typed_runInto {release : ReleaseId} {x : Exit Value Value}
    (hrelease : Γ.releases release.index = some (ρ, ε)) (hx : x.Fits S Γ ε τ) :
    (release.runInto x : Effect ε).Typed S Γ ρ τ :=
  finishWith hx (typed_run hrelease (fits_withoutValue hx))

theorem typed_insideOut {inner : Effect ε} {outer : ReleaseId} {x : Exit Value Value}
    (hinner : inner.Typed S Γ ρ .unit) (houter : Γ.releases outer.index = some (ρ, ε))
    (hx : x.Fits S Γ ε .unit) : (insideOut inner outer x).Typed S Γ ρ .unit :=
  chainAs (result hinner) reads_exit fun _ hle _ hfirst => .done <|
    finishWith hfirst (typed_run (hle.releases _ _ houter) (hx.mono hle))

/-- Both exits are there when two releases have been carried out at once. -/
theorem typed_atOnce {left right : Effect ε} (hleft : left.Typed S Γ ρ .unit)
    (hright : right.Typed S Γ ρ .unit) : (atOnce left right).Typed S Γ ρ .unit := by
  refine chainAs (zipPar (result hleft) (result hright)) reads_pair fun Γ' _ exits hexits => ?_
  obtain ⟨a, b, rfl, ha, hb⟩ := hexits
  obtain ⟨first, rfl, hfirst⟩ := ha.exists_exit
  obtain ⟨second, rfl, hsecond⟩ := hb.exists_exit
  exact .done (ofExit (Exit.Holds.withFinalizer hfirst hsecond))

end Release

/-! ### Resources -/

/-- A resource whose value has a type. -/
abbrev Resource.Typed (S : Declarations) (Γ : Context) (ρ τ : Ty) (m : Resource ε) : Prop :=
  m.reserve.Typed S Γ ρ (.reservation ρ ε τ)

/-- An action that describes such a resource. -/
abbrev Provides (S : Declarations) (Γ : Context) (ρ τ : Ty) (a : Action (Resource ε)) : Prop :=
  a.Safe S (fun Γ' (_ : Unit) m => m.Typed S Γ' ρ τ) Γ ()

/-- An acquired value and its release. -/
structure Reservation.Fits (S : Declarations) (ρ : Ty) (ε : ErrorType) (τ : Ty) (Γ : Context)
    (r : Reservation) : Prop where
  value : r.value.HasTy S Γ τ
  release : Γ.releases r.release.index = some (ρ, ε)

theorem Reservation.Fits.mono {r : Reservation} {Γ' : Context} (hle : Γ ≤ Γ')
    (h : r.Fits S ρ ε τ Γ) : r.Fits S ρ ε τ Γ' :=
  ⟨h.value.mono hle, hle.releases _ _ h.release⟩

theorem reads_reservation : (Ty.reservation ρ ε τ).Reads S (Reservation.Fits S ρ ε τ) := by
  intro Γ v hv
  cases hv with
  | reservation hvalue hrelease => exact ⟨_, rfl, hvalue, hrelease⟩

namespace Resource.Typed

variable {m : Resource ε}

theorem reservation {v : Value} {release : Release} (hv : v.HasTy S Γ τ)
    (hrelease : release.Typed S Γ (ρ, ε)) :
    (Resource.reservation v release : Effect ε).Typed S Γ ρ (.reservation ρ ε τ) :=
  Instruction.Typed.reserve hv hrelease

theorem bracketExit {acquire : Effect ε} {release : Value → Exit Value Value → Action (Effect ε)}
    (hacquire : acquire.Typed S Γ ρ τ)
    (hrelease : ∀ Γ', Γ ≤ Γ' → ∀ v x, v.HasTy S Γ' τ → x.Fits S Γ' ε .unit →
      Describes S Γ' ρ .unit (release v x)) :
    (Resource.bracketExit acquire release).Typed S Γ ρ τ :=
  hacquire.chain fun _ hle v hv => .done <| reservation hv <| .code fun Γ'' hle' x hx =>
    hrelease Γ'' (hle.trans hle') v x (hv.mono hle') hx

theorem bracket {acquire : Effect ε} {release : Value → Action (Effect ε)}
    (hacquire : acquire.Typed S Γ ρ τ) (hrelease : Continues S Γ ρ τ .unit release) :
    (Resource.bracket acquire release).Typed S Γ ρ τ :=
  bracketExit hacquire fun Γ' hle v _ hv _ => hrelease Γ' hle v hv

theorem ofEffect {acquire : Effect ε} (hacquire : acquire.Typed S Γ ρ τ) :
    (Resource.ofEffect acquire).Typed S Γ ρ τ :=
  bracket hacquire fun _ _ _ _ => .done unit

theorem succeed {v : Value} (hv : v.HasTy S Γ τ) :
    (Resource.succeed v : Resource ε).Typed S Γ ρ τ :=
  ofEffect (Effect.Typed.succeed hv)

theorem fail {v : Value} (hv : v.HasTy S Γ (S.payload ε)) :
    (Resource.fail v : Resource ε).Typed S Γ ρ τ :=
  Effect.Typed.fail hv

theorem suspend {build : Action (Resource ε)} (h : ∀ Γ', Γ ≤ Γ' → Provides S Γ' ρ τ build) :
    (Resource.suspend build).Typed S Γ ρ τ :=
  Effect.Typed.suspend fun Γ' hle => (h Γ' hle).bind fun _ _ _ hm => .done hm

theorem fiber {e : Effect ε} (he : e.Typed S Γ ρ τ) :
    (Resource.fiber e).Typed S Γ ρ (.fiber ε τ) :=
  bracket (fork (interruptible he)) <| .expecting reads_fiber fun _ _ _ hf =>
    .done (asUnit (interruptFiber hf))

/-! ### Consumers -/

theorem use {f : Value → Action (Effect ε)} (hm : m.Typed S Γ ρ τ)
    (hf : Continues S Γ ρ τ τ' f) : (m.use f).Typed S Γ ρ τ' := by
  have hrelease : ∀ Γ', Γ ≤ Γ' → ∀ held (x : Exit Value Value),
      held.HasTy S Γ' (.reservation ρ ε τ) → x.Fits S Γ' ε τ' → Describes S Γ' ρ .unit (Effect.expecting
        (fun r : Reservation => pure (r.release.run x.withoutValue : Effect ε)) held) :=
    fun Γ' _ held x hheld hx => Continues.expecting reads_reservation
      (fun _ hle r hr => .done (Release.typed_run hr.release
        (Release.fits_withoutValue (hx.mono hle)))) Γ' le_rfl held hheld
  exact Effect.Typed.bracketExit hm
    (.expecting reads_reservation fun Γ' hle r hr => hf Γ' hle r.value hr.value) hrelease

theorem handOver {r : Reservation} (hr : r.Fits S ρ ε τ Γ) {Γ' : Context} (hle : Γ ≤ Γ')
    {x : Exit Value Value} (hx : x.Fits S Γ' ε τ') :
    Describes S Γ' ρ (.lease ρ ε τ) (Resource.handOver r x : Action (Effect ε)) := by
  cases x with
  | done _ =>
    exact (Action.safe_operation (.newLease (hr.mono hle).release)).bind fun _ hle' _ hlease =>
      .done (Effect.Typed.succeed (.lease hlease (hr.value.mono (hle.trans hle'))))
  | halt h => exact .done (Release.typed_runInto (hr.mono hle).release hx)

theorem allocate (hm : m.Typed S Γ ρ τ) : m.allocate.Typed S Γ ρ (.lease ρ ε τ) :=
  mask fun _ h₁ restore => .done <| chainAs (hm.mono h₁) reads_reservation fun _ _ _ hr => .done <|
    chainAs (result (restored unit restore)) reads_exit fun _ hle _ hx => handOver hr hle hx

/-! ### Several resources as one -/

theorem onReserved {f : Reservation → Action (Effect ε)} (hm : m.Typed S Γ ρ τ)
    (hf : ∀ Γ', Γ ≤ Γ' → ∀ r : Reservation, r.Fits S ρ ε τ Γ' →
      Describes S Γ' ρ (.reservation ρ ε τ') (f r)) : (m.onReserved f).Typed S Γ ρ τ' :=
  chainAs hm reads_reservation hf

theorem map {f : Value → Action Value} (hm : m.Typed S Γ ρ τ) (hf : Computes S Γ τ τ' f) :
    (m.map f).Typed S Γ ρ τ' :=
  hm.onReserved fun Γ' hle r hr => (hf Γ' hle r.value hr.value).bind fun _ hle' _ hv =>
    .done (Effect.Typed.succeed (.reservation hv (hle'.releases _ _ hr.release)))

theorem as {v : Value} (hm : m.Typed S Γ ρ τ) (hv : v.HasTy S Γ τ') :
    (m.as v).Typed S Γ ρ τ' :=
  hm.map fun _ hle _ _ => .done (hv.mono hle)

theorem settleInner {outer : Reservation} (houter : outer.Fits S ρ ε τ Γ) {Γ' : Context}
    (hle : Γ ≤ Γ') {x : Exit Value Value} (hx : x.Fits S Γ' ε (.reservation ρ ε τ')) :
    Describes S Γ' ρ (.reservation ρ ε τ') (Resource.settleInner outer x : Action (Effect ε)) := by
  cases x with
  | done inner =>
    exact Continues.expecting reads_reservation
      (fun _ hle' r hr => .done (reservation hr.value
        (.nested hr.release ((houter.mono (hle.trans hle')).release)))) Γ' le_rfl inner hx
  | halt h => exact .done (Release.typed_runInto (houter.mono hle).release hx)

theorem chain {f : Value → Action (Resource ε)} (hm : m.Typed S Γ ρ τ)
    (hf : ∀ Γ', Γ ≤ Γ' → ∀ v, v.HasTy S Γ' τ → Provides S Γ' ρ τ' (f v)) :
    (m.chain f).Typed S Γ ρ τ' := by
  refine hm.onReserved fun Γ₁ h₁ outer houter => ?_
  have hinner : Describes S Γ₁ ρ (.reservation ρ ε τ')
      (f outer.value >>= fun m => pure m.reserve) :=
    (hf Γ₁ h₁ outer.value houter.value).bind fun _ _ _ hm' => .done hm'
  exact (guarded hinner).bind fun _ h₂ _ hbuilt => .done <|
    chainAs (result hbuilt) reads_exit fun _ h₃ _ hx =>
      settleInner houter (h₂.trans h₃) hx

theorem chainTap {f : Value → Action (Resource ε)} (hm : m.Typed S Γ ρ τ)
    (hf : ∀ Γ', Γ ≤ Γ' → ∀ v, v.HasTy S Γ' τ → Provides S Γ' ρ τ' (f v)) :
    (m.chainTap f).Typed S Γ ρ τ :=
  hm.chain fun Γ' hle v hv => (hf Γ' hle v hv).bind fun _ hle' _ hinner =>
    .done (as hinner (hv.mono hle'))

theorem zipWith {a b : Resource ε} {f : Value → Value → Action Value} (ha : a.Typed S Γ ρ τ)
    (hb : b.Typed S Γ ρ τ')
    (hf : ∀ Γ', Γ ≤ Γ' → ∀ x, x.HasTy S Γ' τ → Computes S Γ' τ' τ'' (f x)) :
    (a.zipWith b f).Typed S Γ ρ τ'' :=
  ha.chain fun Γ' hle x hx => .done (map (hb.mono hle) (hf Γ' hle x hx))

theorem zip {a b : Resource ε} (ha : a.Typed S Γ ρ τ) (hb : b.Typed S Γ ρ τ') :
    (a.zip b).Typed S Γ ρ (.pair τ τ') :=
  ha.zipWith hb fun _ _ _ hx _ hle _ hy => .done (.pair (hx.mono hle) hy)

/-- The environment in which a resource is acquired is the one in which it is released. -/
theorem provideSome {f : Value → Action Value} (hf : Computes S Γ ρ ρ' f)
    (hm : m.Typed S Γ ρ' τ) : (m.provideSome f).Typed S Γ ρ τ :=
  chainAs (Effect.Typed.provideSome hf hm) reads_reservation fun _ hle _ hr => .done <|
    reservation hr.value (.within (fun Γ' hle' => hf Γ' (hle.trans hle')) hr.release)

/-! ### Both at once -/

theorem settleBoth {f : Value → Value → Action Value} {Γ' : Context}
    (hf : ∀ Γ', Γ ≤ Γ' → ∀ a b, a.HasTy S Γ' τ → b.HasTy S Γ' τ' →
      (f a b).Safe S (Value.HasTy S) Γ' τ'') (hle : Γ ≤ Γ') {x y : Exit Value Value}
    (hx : x.Fits S Γ' ε (.reservation ρ ε τ)) (hy : y.Fits S Γ' ε (.reservation ρ ε τ')) :
    Describes S Γ' ρ (.reservation ρ ε τ'') (Resource.settleBoth f x y : Action (Effect ε)) := by
  cases x with
  | done a =>
    cases y with
    | done b =>
      refine Continues.expecting reads_reservation (fun Γ₁ h₁ left hleft => ?_) Γ' le_rfl a hx
      refine Continues.expecting reads_reservation (fun Γ₂ h₂ right hright => ?_) Γ₁ le_rfl b
        (hy.mono h₁)
      have hleft₂ := hleft.mono h₂
      exact (hf Γ₂ (hle.trans (h₁.trans h₂)) _ _ hleft₂.value hright.value).bind fun _ h₃ _ hv =>
        .done (reservation hv
          (.both (h₃.releases _ _ hleft₂.release) (h₃.releases _ _ hright.release)))
    | halt h =>
      have hh : Exit.Fits S Γ' ε (.reservation ρ ε τ'') (.halt h) := hy
      exact Continues.expecting reads_reservation (fun Γ₁ h₁ r hr =>
        .done (Release.typed_runInto hr.release (hh.mono h₁))) Γ' le_rfl a hx
  | halt first =>
    cases y with
    | done b =>
      have hh : Exit.Fits S Γ' ε (.reservation ρ ε τ'') (.halt first) := hx
      exact Continues.expecting reads_reservation (fun Γ₁ h₁ r hr =>
        .done (Release.typed_runInto hr.release (hh.mono h₁))) Γ' le_rfl b hy
    | halt second => exact .done (halt (Halt.Holds.keepSibling hx hy))

theorem parZipWith {a b : Resource ε} {f : Value → Value → Action Value}
    (ha : a.Typed S Γ ρ τ) (hb : b.Typed S Γ ρ τ')
    (hf : ∀ Γ', Γ ≤ Γ' → ∀ a b, a.HasTy S Γ' τ → b.HasTy S Γ' τ' →
      (f a b).Safe S (Value.HasTy S) Γ' τ'') : (a.parZipWith b f).Typed S Γ ρ τ'' :=
  uninterruptible <| raceFold ha hb
    (fun _ h₁ _ _ hx hother => .done <| chainAs (awaitExit hother) reads_exit fun _ h₂ _ hy =>
      settleBoth hf (h₁.trans h₂) (Exit.Fits.mono h₂ hx) hy)
    fun _ h₁ _ _ hx hother => .done <| chainAs (awaitExit hother) reads_exit fun _ h₂ _ hy =>
      settleBoth hf (h₁.trans h₂) hy (Exit.Fits.mono h₂ hx)

theorem parZip {a b : Resource ε} (ha : a.Typed S Γ ρ τ) (hb : b.Typed S Γ ρ τ') :
    (a.parZip b).Typed S Γ ρ (.pair τ τ') :=
  ha.parZipWith hb fun _ _ _ _ hx hy => .done (.pair hx hy)

end Resource.Typed

/-! ### Leases -/

theorem LeaseId.typed_releaseExit {lease : LeaseId} {x : Exit Value Value}
    (hlease : Γ.leases lease.index = some (ρ, ε)) (hx : x.Fits S Γ ε τ) :
    (lease.releaseExit x : Effect ε).Typed S Γ ρ .unit :=
  uninterruptible (Instruction.Typed.releaseLease hlease (Release.fits_withoutValue hx))

theorem LeaseId.typed_release {lease : LeaseId} (hlease : Γ.leases lease.index = some (ρ, ε)) :
    (lease.release : Effect ε).Typed S Γ ρ .unit :=
  typed_releaseExit hlease (Value.HasTy.unit : Exit.Fits S Γ ε .unit (.done .unit))

end Fibers
