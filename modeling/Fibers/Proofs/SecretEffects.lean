import Fibers.Machine.Releasing
import Fibers.Proofs.Secrets

/-!
# Effects that keep their children to themselves

Effects that are put together from parts that have not been told of a fiber keep to the clearance of
the whole.  Effects that run others at once have started these themselves: they do so with the
clearance to wait for their children, and what they end with tells nobody of them.  Their children
have no clearance, whichever the parent has, and neither has the code that combines what the children
have ended with.

The rules for effects at once hold for every clearance.  Taken without one, they say of which programs
it is known that they have not been told of a fiber; taken with one, they say that what is left of
such an effect while it runs keeps its own children to itself.  That the parts have not been told of
the fiber is known from the whole, which is what the converse lemmas are for.

## Main definitions

* `Effect.Guards`, `Builds` — effects, and code that builds them, that keep to a clearance.
* `Reads` — the data that a value stands for.
* `Effect.IsPrivate` — effects that may be allowed to wait for a fiber of which nobody has been told.

## Main results

* `Effect.Guards.raceFold`, `Effect.Guards.zipParWith`, `Effect.Guards.race`,
  `Effect.Guards.collectAllPar` — effects at once.
* `Effect.Guards.of_zipParWith`, `Effect.Guards.of_race`, `Effect.Guards.of_collectAllPar` — what is
  known of the parts if the whole has not been told of a fiber.
* `Effect.isPrivate_zipParWith`, `Effect.isPrivate_race`, `Effect.isPrivate_collectAllPar` — **effects
  at once keep what they learn of a fiber to themselves.**
-/

namespace Fibers

/-- An effect that keeps to a clearance. -/
abbrev Effect.Guards (c : FiberId) (k : Clearance) {ε : ErrorType} (e : Effect ε) : Prop :=
  Instruction.Guards c k e

/-- Code that builds such an effect. -/
abbrev Builds (c : FiberId) (k : Clearance) {ε : ErrorType} (a : Action (Effect ε)) : Prop :=
  Action.Guards c (Instruction.Guards c) a k

/-- Values that are handed on with a clearance stand for data of which `P` holds, if they stand for
data at all. -/
def Reads (c : FiberId) (t : Bool) {α : Type} [Carried α] (P : α → Prop) : Prop :=
  ∀ {v : Value} {a : α}, v.Cleared c t → Carried.ofValue? v = some a → P a

/-- Code that makes values which are handed on with a clearance. -/
abbrev Action.Clears (c : FiberId) (t : Bool) (a : Action Value) : Prop :=
  a.Guards c (fun (_ : Unit) v => v.Cleared c t) ()

/-- The handle of a fiber for which a clearance allows to wait. -/
abbrev Fiber.Waited (c : FiberId) (waits : Bool) {ε : ErrorType} (f : Fiber ε) : Prop :=
  f.id = c → waits = true

variable {c : FiberId} {k : Clearance} {waits t t' : Bool} {ε ε' ε₁ ε₂ : ErrorType}

/-! ### Data that travels as values -/

theorem reads_any {α : Type} [Carried α] : Reads c t fun _ : α => True := fun _ _ => trivial

theorem reads_exits : Reads c false fun x : Exit Value Value => x.Omits c := by
  intro v x hv hx
  cases v with
  | exit x' => exact Option.some.inj hx ▸ Exit.Omits.of_value hv.omits
  | _ => cases hx

theorem reads_lists : Reads c t fun vs : List Value => ∀ v ∈ vs, v.Cleared c t := by
  intro v vs hv hvs
  cases v with
  | list vs' =>
    obtain rfl := Option.some.inj hvs
    exact fun v hmem => hv.imp_right fun homits => homits.of_list v hmem
  | _ => cases hvs

/-- Whoever has been told of a fiber that it may not wait for has been told of another one. -/
theorem reads_fibers : Reads c waits fun f : Fiber ε => f.Waited c waits := by
  intro v f hv hf hc
  cases v with
  | fiber id =>
    obtain rfl := Option.some.inj hf
    rcases hv with htells | homits
    · exact htells
    · cases homits with
      | fiber hne => exact absurd hc hne
  | _ => cases hf

namespace Halt

variable {h h' : Halt Value}

theorem Spares.keepSibling {x : Exit Value Value} (hh : h.Spares c) (hx : x.Omits c) :
    (h.keepSibling x).Spares c := by
  unfold Halt.keepSibling
  split
  · split
    · exact hh
    · exact Halt.Holds.append hh hx
  · exact hh

theorem Spares.keepSiblings {exits : List (Exit Value Value)} (hh : h.Spares c)
    (hexits : ∀ x ∈ exits, x.Omits c) : (exits.foldl Halt.keepSibling h).Spares c := by
  induction exits generalizing h with
  | nil => exact hh
  | cons x exits ih =>
    obtain ⟨hx, hexits⟩ := List.forall_mem_cons.mp hexits
    exact ih (hh.keepSibling hx) hexits

theorem Spares.bothFailed (hh : h.Spares c) (hh' : h'.Spares c) :
    (Effect.bothFailed h h').Spares c := by
  rw [Halt.Spares, Halt.holds_iff] at hh hh' ⊢
  refine List.forall_mem_cons.mpr
    ⟨(hh _ List.mem_cons_self).alongside (hh' _ List.mem_cons_self), ?_⟩
  exact List.forall_mem_append.mpr ⟨fun d hd => hh d (List.mem_cons_of_mem _ hd),
    fun d hd => hh' d (List.mem_cons_of_mem _ hd)⟩

end Halt

namespace Effect.Guards

variable {e : Effect ε}

/-! ### Effects in order -/

theorem succeed {v : Value} (hv : v.Omits c) : (Effect.succeed v : Effect ε).Guards c k :=
  Instruction.guards_value hv

theorem succeed_cleared {v : Value} (hv : v.Cleared c t) :
    (Effect.succeed v : Effect ε).Guards c ⟨waits, t⟩ :=
  @Instruction.Guards.done c ⟨waits, t⟩ (.done v) hv

theorem unit : (Effect.unit : Effect ε).Guards c k := succeed .unit

theorem ofExit {x : Exit Value Value} (hx : x.Omits c) : (Effect.ofExit x : Effect ε).Guards c k :=
  Instruction.Guards.done hx.tag.cleared

theorem halt {h : Halt Value} (hh : h.Spares c) : (Effect.halt h : Effect ε).Guards c k :=
  ofExit (x := .halt h) hh

theorem fail {v : Value} (hv : v.Omits c) : (Effect.fail v : Effect ε).Guards c k :=
  halt (Halt.holds_of (Cause.holds_fail hv))

theorem chain {next : Value → Action (Effect ε)} (he : e.Guards c ⟨waits, t⟩)
    (hnext : ∀ v, v.Cleared c t → Builds c ⟨waits, t'⟩ (next v)) :
    (e.chain next).Guards c ⟨waits, t'⟩ :=
  Instruction.Guards.chain he hnext

theorem expecting {α : Type} [Carried α] {P : α → Prop} {next : α → Action (Effect ε)}
    (hreads : Reads c t P) (hnext : ∀ a, P a → Builds c k (next a)) {v : Value}
    (hv : v.Cleared c t) : Builds c k (Effect.expecting next v) := by
  unfold Effect.expecting
  split
  · next a ha => exact hnext a (hreads hv ha)
  · exact .done (Instruction.guards_die _)

theorem chainAs {α : Type} [Carried α] {P : α → Prop} {next : α → Action (Effect ε)}
    (he : e.Guards c ⟨waits, t⟩) (hreads : Reads c t P)
    (hnext : ∀ a, P a → Builds c ⟨waits, t'⟩ (next a)) :
    (e.chainAs next).Guards c ⟨waits, t'⟩ :=
  he.chain fun _ hv => expecting hreads hnext hv

theorem as {v : Value} (he : e.Guards c ⟨waits, t⟩) (hv : v.Omits c) :
    (e.as v).Guards c ⟨waits, t'⟩ :=
  he.chain fun _ _ => .done (succeed hv)

theorem zipRight {a b : Effect ε} (ha : a.Guards c ⟨waits, t⟩)
    (hb : b.Guards c ⟨waits, t'⟩) : (a.zipRight b).Guards c ⟨waits, t'⟩ :=
  ha.chain fun _ _ => .done hb

theorem collectAfter {es : List (Effect ε)} {values : List Value}
    (hvalues : ∀ v ∈ values, v.Cleared c t)
    (hes : ∀ e ∈ es, Effect.Guards c ⟨waits, t⟩ e) :
    (Effect.collectAfter values es).Guards c ⟨waits, t⟩ := by
  induction es generalizing values with
  | nil =>
    refine Instruction.Guards.done ?_
    cases t with
    | true => exact Or.inl rfl
    | false => exact Or.inr (.list fun v hv => (hvalues v hv).omits)
  | cons e es ih =>
    obtain ⟨he, hes⟩ := List.forall_mem_cons.mp hes
    exact chain he fun v hv => .done <| ih
      (List.forall_mem_append.mpr ⟨hvalues, List.forall_mem_singleton.mpr hv⟩) hes

theorem collectAll {es : List (Effect ε)} (hes : ∀ e ∈ es, Effect.Guards c ⟨waits, t⟩ e) :
    (Effect.collectAll es).Guards c ⟨waits, t⟩ :=
  Instruction.Guards.suspend (.done (collectAfter nofun hes))

theorem guarded {build : Action (Effect ε)} (h : Builds c k build) :
    Builds c k (Effect.guarded build) :=
  h.recover fun d => Instruction.guards_die d

theorem foldHalt {onHalt : Halt Value → Action (Effect ε')} {onDone : Value → Action (Effect ε')}
    (he : e.Guards c ⟨waits, t⟩)
    (hhalt : ∀ h : Halt Value, h.Spares c → Builds c ⟨waits, t'⟩ (onHalt h))
    (hdone : ∀ v, v.Cleared c t → Builds c ⟨waits, t'⟩ (onDone v)) :
    (e.foldHalt onHalt onDone).Guards c ⟨waits, t'⟩ :=
  Instruction.Guards.fold he (fun _ hh => hhalt _ hh.untag) hdone

theorem result (he : e.Guards c ⟨waits, false⟩) : (e.result : Effect ε').Guards c ⟨waits, t⟩ :=
  he.foldHalt (fun h hh => .done (succeed (.of_exit (x := .halt h) hh)))
    fun v hv => .done (succeed (.of_exit (x := .done v) hv.omits))

/-! ### Regions -/

theorem restored (he : e.Guards c k) (restore : Restore) : (restore.apply e).Guards c k :=
  Instruction.Guards.setInterruptible he

theorem mask {body : Restore → Action (Effect ε)} (hbody : ∀ restore, Builds c k (body restore)) :
    (Effect.mask body).Guards c k :=
  Instruction.Guards.interruptStatus fun status => (hbody ⟨status⟩).bind fun _ he =>
    .done (Instruction.Guards.setInterruptible he)

theorem finishWith {x : Exit Value Value} {finalizer : Effect ε} (hx : x.Omits c)
    (hfinalizer : finalizer.Guards c ⟨waits, false⟩) :
    (Effect.finishWith x finalizer).Guards c ⟨waits, t⟩ :=
  (result (t := false) hfinalizer).chainAs reads_exits fun _ hreleased =>
    .done (ofExit (Exit.Holds.withFinalizer hx hreleased))

/-- An acquisition, a use and a release. -/
theorem bracketExit {acquire : Effect ε} {use : Value → Action (Effect ε)}
    {release : Value → Exit Value Value → Action (Effect ε)}
    (hacquire : acquire.Guards c ⟨waits, false⟩)
    (huse : ∀ v, v.Omits c → Builds c ⟨waits, false⟩ (use v))
    (hrelease : ∀ (v : Value) (x : Exit Value Value), v.Omits c → x.Omits c →
      Builds c ⟨waits, false⟩ (release v x)) :
    (Effect.bracketExit acquire use release).Guards c ⟨waits, t⟩ :=
  mask fun restore => .done <| hacquire.chain fun held hheld =>
    (guarded (huse held hheld.omits)).bind fun _ hused => .done <|
      (result (t := false) (restored hused restore)).chainAs reads_exits fun x hx =>
        (guarded (hrelease held x hheld.omits hx)).bind fun _ hfinalizer =>
          .done (finishWith hx hfinalizer)

/-- What is put around an effect for the case that it is interrupted. -/
theorem onInterrupt {cleanup : Effect ε} (he : e.Guards c ⟨waits, false⟩)
    (hcleanup : cleanup.Guards c ⟨waits, false⟩) : (e.onInterrupt cleanup).Guards c ⟨waits, t⟩ := by
  refine bracketExit unit (fun _ _ => .done he) fun _ x _ _ => .done ?_
  split
  · exact hcleanup
  · exact unit

/-! ### Fibers -/

theorem fork (he : e.Guards c .none) : (e.fork : Effect ε').Guards c ⟨waits, waits⟩ :=
  Instruction.Guards.fork he id

theorem signal (f : Fiber ε) : (f.signal : Effect ε').Guards c k := Instruction.Guards.signal k f.id

theorem awaitExit {f : Fiber ε} (hf : f.Waited c waits) :
    (f.awaitExit : Effect ε').Guards c ⟨waits, t⟩ :=
  Instruction.Guards.wait (.awaitExit ε hf)

theorem adopt {f : Fiber ε} (hf : f.Waited c waits) : f.adopt.Guards c ⟨waits, t⟩ :=
  (awaitExit (t := false) hf).chainAs reads_exits fun _ hx => .done (ofExit hx)

theorem interrupt {f : Fiber ε} (hf : f.Waited c waits) :
    (f.interrupt : Effect ε').Guards c ⟨waits, t⟩ :=
  (signal (k := ⟨waits, false⟩) f).zipRight (awaitExit hf)

theorem awaitOrInterrupt {f : Fiber ε} (hf : f.Waited c waits) :
    (f.awaitOrInterrupt : Effect ε').Guards c ⟨waits, t⟩ :=
  onInterrupt (awaitExit hf) <| Instruction.Guards.suspend <| .done <|
    as (interrupt (t := false) hf) .unit

/-! ### Two effects at once -/

theorem firstDone {left : Fiber ε} {right : Fiber ε₁} (hl : left.Waited c waits)
    (hr : right.Waited c waits) :
    (Effect.firstDone left right : Effect ε₂).Guards c ⟨waits, t⟩ :=
  Instruction.Guards.wait (.firstDone hl hr)

theorem abandonRace {left : Fiber ε} {right : Fiber ε₁} {h : Halt Value} (hl : left.Waited c waits)
    (hr : right.Waited c waits) (hh : h.Spares c) :
    (Effect.abandonRace left right h : Effect ε₂).Guards c ⟨waits, t⟩ := by
  have hboth : (left.signal.zipRight right.signal : Effect ε₂).Guards c ⟨waits, false⟩ :=
    (signal (k := ⟨waits, false⟩) left).zipRight (signal right)
  exact ((hboth.zipRight (awaitExit (t := false) hl)).zipRight
    (awaitExit (t := false) hr)).chain fun _ _ => .done (halt hh)

theorem settleRace {restore : Restore} {left : Fiber ε} {right : Fiber ε₁}
    {onLeft : Exit Value Value → Fiber ε₁ → Action (Effect ε₂)}
    {onRight : Exit Value Value → Fiber ε → Action (Effect ε₂)} (hl : left.Waited c waits)
    (hr : right.Waited c waits)
    (honLeft : ∀ x : Exit Value Value, x.Omits c → Builds c ⟨waits, t⟩ (onLeft x right))
    (honRight : ∀ x : Exit Value Value, x.Omits c → Builds c ⟨waits, t⟩ (onRight x left))
    (leftFirst : Bool) :
    (Effect.settleRace restore left right onLeft onRight leftFirst).Guards c ⟨waits, t⟩ := by
  unfold Effect.settleRace
  split
  · exact (awaitExit (t := false) hl).chainAs reads_exits fun x hx =>
      (honLeft x hx).bind fun _ hhandled => .done (restored hhandled restore)
  · exact (awaitExit (t := false) hr).chainAs reads_exits fun x hx =>
      (honRight x hx).bind fun _ hhandled => .done (restored hhandled restore)

/-- **A race keeps its children to itself**, if its handlers do. -/
theorem raceFold {left : Effect ε} {right : Effect ε₁}
    {onLeft : Exit Value Value → Fiber ε₁ → Action (Effect ε₂)}
    {onRight : Exit Value Value → Fiber ε → Action (Effect ε₂)} (hleft : left.Guards c .none)
    (hright : right.Guards c .none)
    (honLeft : ∀ (x : Exit Value Value) (other : Fiber ε₁), x.Omits c → other.Waited c waits →
      Builds c ⟨waits, t⟩ (onLeft x other))
    (honRight : ∀ (x : Exit Value Value) (other : Fiber ε), x.Omits c → other.Waited c waits →
      Builds c ⟨waits, t⟩ (onRight x other)) :
    (Effect.raceFold left right onLeft onRight).Guards c ⟨waits, t⟩ :=
  mask fun restore => .done <|
    (fork (restored hleft restore)).chainAs reads_fibers fun l hl => .done <|
      (fork (restored hright restore)).chainAs reads_fibers fun r hr => .done <|
        (restored (firstDone (t := false) hl hr) restore).foldHalt
          (fun _ hh => .done (abandonRace hl hr hh)) fun _ hv =>
            expecting reads_any (fun leftFirst _ => .done <| settleRace hl hr
              (fun x hx => honLeft x r hx hr) (fun x hx => honRight x l hx hl) leftFirst) hv

theorem finishPair {other : Fiber ε} {combine : Value → Action Value} (hother : other.Waited c waits)
    (hcombine : ∀ v, v.Omits c → (combine v).Clears c t) :
    (Effect.finishPair other combine : Effect ε).Guards c ⟨waits, t⟩ := by
  refine (awaitOrInterrupt (t := false) hother).chainAs reads_exits fun x hx => ?_
  cases x with
  | done v => exact (hcombine v hx).bind fun _ hv => .done (succeed_cleared hv)
  | halt h => exact .done (halt hx)

/-- **A pair keeps its children to itself**, if the code that combines their values does. -/
theorem zipParWith {left right : Effect ε} {f : Value → Value → Action Value}
    (hleft : left.Guards c .none) (hright : right.Guards c .none)
    (hf : ∀ a b, a.Omits c → b.Omits c → (f a b).Clears c t) :
    (left.zipParWith right f).Guards c ⟨waits, t⟩ := by
  refine raceFold hleft hright (fun x other hx hother => ?_) fun x other hx hother => ?_
  · cases x with
    | done a => exact .done (finishPair hother fun b hb => hf a b hx hb)
    | halt h =>
      exact .done <| (interrupt (t := false) hother).chainAs reads_exits fun y hy =>
        .done (halt (Halt.Spares.keepSibling hx hy))
  · cases x with
    | done b => exact .done (finishPair hother fun a ha => hf a b ha hx)
    | halt h =>
      refine .done <| (interrupt (t := false) hother).chainAs reads_exits fun y hy => ?_
      cases y with
      | done a => exact .done (halt hx)
      | halt first =>
        refine .done (halt ?_)
        split
        · exact hx
        · exact Halt.Holds.append hy hx

theorem zipPar {left right : Effect ε} (hleft : left.Guards c .none)
    (hright : right.Guards c .none) : (left.zipPar right).Guards c ⟨waits, t⟩ :=
  zipParWith hleft hright fun _ _ ha hb => .done <| Value.Omits.cleared <|
    .list (List.forall_mem_cons.mpr ⟨ha, List.forall_mem_singleton.mpr hb⟩)

theorem raceSettle {x : Exit Value Value} {other : Fiber ε} (hx : x.Omits c)
    (hother : other.Waited c waits) : (Effect.raceSettle x other).Guards c ⟨waits, t⟩ := by
  cases x with
  | done a => exact as (interrupt (t := false) hother) hx
  | halt first =>
    refine (awaitOrInterrupt (t := false) hother).chainAs reads_exits fun y hy => ?_
    cases y with
    | done a => exact .done (succeed hy)
    | halt second => exact .done (halt (Halt.Spares.bothFailed hx hy))

/-- **A race for the first success keeps its children to itself.** -/
theorem race {left right : Effect ε} (hleft : left.Guards c .none) (hright : right.Guards c .none) :
    (left.race right).Guards c ⟨waits, t⟩ :=
  raceFold hleft hright (fun _ _ hx hother => .done (raceSettle hx hother))
    fun _ _ hx hother => .done (raceSettle hx hother)

/-! ### Many effects at once -/

theorem interruptAll {fibers : List (Fiber ε)} (hfibers : ∀ f ∈ fibers, f.Waited c waits) :
    (Fiber.interruptAll fibers : Effect ε').Guards c ⟨waits, false⟩ := by
  have hsignals : (Effect.collectAll (fibers.map fun f => (f.signal : Effect ε'))).Guards c
      ⟨waits, false⟩ := by
    refine collectAll fun e he => ?_
    obtain ⟨f, -, rfl⟩ := List.mem_map.mp he
    exact signal f
  refine hsignals.zipRight (collectAll fun e he => ?_)
  obtain ⟨f, hf, rfl⟩ := List.mem_map.mp he
  exact awaitExit (hfibers f hf)

theorem failNursery {culprit : Fiber ε} {siblings : List (Fiber ε)}
    (hculprit : culprit.Waited c waits) (hsiblings : ∀ f ∈ siblings, f.Waited c waits) :
    (Effect.failNursery culprit siblings).Guards c ⟨waits, t⟩ := by
  refine (interruptAll hsiblings).chainAs reads_lists fun exits hexits => .done <|
    (awaitExit (t := false) hculprit).chainAs reads_exits fun x hx => .done (halt ?_)
  refine Halt.Spares.keepSiblings ?_ fun y hy => ?_
  · cases x with
    | done _ => exact Halt.holds_of (Cause.holds_die trivial)
    | halt h => exact hx
  · obtain ⟨v, hv, hread⟩ := List.mem_filterMap.mp hy
    exact reads_exits (hexits v hv) hread

theorem settleNursery {children : List (Fiber ε)} (hchildren : ∀ f ∈ children, f.Waited c waits)
    (verdict : Value) : (Effect.settleNursery children verdict).Guards c ⟨waits, t⟩ := by
  unfold Effect.settleNursery
  split
  · split
    · next culprit hculprit =>
      exact failNursery (hchildren _ (List.mem_of_getElem? hculprit)) fun f hf =>
        hchildren f (List.mem_of_mem_eraseIdx hf)
    · exact Instruction.guards_die _
  · refine collectAll fun e he => ?_
    obtain ⟨f, hf, rfl⟩ := List.mem_map.mp he
    exact adopt (hchildren f hf)

/-- **A nursery keeps its children to itself.** -/
theorem collectAllPar {es : List (Effect ε)} (hes : ∀ e ∈ es, Effect.Guards c .none e) :
    (Effect.collectAllPar es).Guards c ⟨waits, t⟩ := by
  unfold Effect.collectAllPar
  split
  · exact Instruction.Guards.suspend (.done (succeed (.list nofun)))
  · refine mask fun restore => .done ?_
    have hforks : (Effect.collectAll (es.map fun e => (restore.apply e).fork) :
        Effect ε).Guards c ⟨waits, waits⟩ := by
      refine collectAll fun e' he' => ?_
      obtain ⟨e, he, rfl⟩ := List.mem_map.mp he'
      exact fork (restored (hes e he) restore)
    refine hforks.chainAs reads_lists fun forked hforked => .done ?_
    have hchildren : ∀ f ∈ (childrenOf forked : List (Fiber ε)), f.Waited c waits := by
      intro f hf
      obtain ⟨v, hv, hread⟩ := List.mem_filterMap.mp hf
      exact reads_fibers (hforked v hv) hread
    have hwait : (firstFailure (childrenOf forked : List (Fiber ε)) : Effect ε).Guards c
        ⟨waits, false⟩ := by
      refine Instruction.Guards.wait (.firstFailure fun hmem => ?_)
      obtain ⟨f, hf, hid⟩ := List.mem_map.mp hmem
      exact hchildren f hf hid
    refine (restored hwait restore).foldHalt (fun h hh => .done ?_)
      fun verdict _ => .done (settleNursery hchildren verdict)
    exact (interruptAll hchildren).chain fun _ _ => .done (halt hh)

/-! ### The parts of effects at once -/

theorem of_restored {restore : Restore} (h : (restore.apply e).Guards c k) : e.Guards c k := by
  cases h with
  | setInterruptible he => exact he

theorem of_fork {daemon : Bool} {child : Instruction}
    (h : Instruction.Guards c k (.fork child daemon)) : child.Guards c .none := by
  cases h with
  | fork hchild _ => exact hchild

theorem of_succeed {v : Value} (h : (Effect.succeed v : Effect ε).Guards c ⟨waits, t⟩) :
    v.Cleared c t := by
  cases h with
  | done hv => exact hv

/-- What is masked keeps to the clearance whatever the status was before. -/
theorem of_mask {body : Restore → Effect ε}
    (h : (Effect.mask fun restore => pure (body restore)).Guards c k) (restore : Restore) :
    (body restore).Guards c k := by
  cases h with
  | interruptStatus hbody =>
    have hmasked := Action.Guards.of_done (hbody restore.interruptible)
    cases hmasked with
    | setInterruptible hinner => exact hinner

theorem of_chainAs {α : Type} [Carried α] {next : α → Action (Effect ε)}
    (h : (e.chainAs next).Guards c ⟨waits, t⟩) :
    (∃ t', e.Guards c ⟨waits, t'⟩) ∧ ∀ (v : Value) (a : α), v.Omits c →
      Carried.ofValue? v = some a → Builds c ⟨waits, t⟩ (next a) := by
  cases h with
  | chain he hnext =>
    refine ⟨⟨_, he⟩, fun v a hv hread => ?_⟩
    have hbuilds := hnext v hv.cleared
    unfold Effect.expecting at hbuilds
    rw [hread] at hbuilds
    exact hbuilds

/-- What is known of the left side of a race and of its handler. -/
theorem of_raceFold {left : Effect ε} {right : Effect ε₁}
    {onLeft : Exit Value Value → Fiber ε₁ → Action (Effect ε₂)}
    {onRight : Exit Value Value → Fiber ε → Action (Effect ε₂)}
    (h : (Effect.raceFold left right onLeft onRight).Guards c ⟨waits, t⟩) :
    left.Guards c .none ∧ right.Guards c .none ∧ ∀ x : Exit Value Value, x.Omits c →
      ∃ (other : Fiber ε₁) (restore : Restore), Builds c ⟨waits, t⟩ (onLeft x other >>= fun e =>
        pure (restore.apply e)) := by
  -- a handle of another fiber
  have hother : (Value.fiber ⟨c.raw + 1⟩).Omits c := .fiber fun heq => by
    have := congrArg FiberId.raw heq
    simp at this
  obtain ⟨⟨_, hleft⟩, hnext⟩ := of_chainAs (of_mask h ⟨true⟩)
  obtain ⟨⟨_, hright⟩, hnext⟩ := of_chainAs (hnext _ ⟨_⟩ hother rfl).of_done
  refine ⟨of_restored (of_fork hleft), of_restored (of_fork hright), fun x hx => ?_⟩
  have hraced := (hnext _ ⟨_⟩ hother rfl).of_done
  cases hraced with
  | fold _ _ hdone =>
    have hsettled := (hdone (.bool true) (.inr (.bool true))).of_done
    obtain ⟨-, hhandler⟩ := of_chainAs hsettled
    exact ⟨_, _, hhandler _ x (.of_exit hx) rfl⟩

/-- **What is known of the parts of a pair**, and of the code that combines their values. -/
theorem of_zipParWith {left right : Effect ε} {f : Value → Value → Action Value}
    (h : (left.zipParWith right f).Guards c ⟨waits, t⟩) :
    left.Guards c .none ∧ right.Guards c .none ∧
      ∀ a b, a.Omits c → b.Omits c → (f a b).Clears c t := by
  obtain ⟨hleft, hright, hhandler⟩ := of_raceFold h
  refine ⟨hleft, hright, fun a b ha hb => ?_⟩
  obtain ⟨other, restore, hbuilt⟩ := hhandler (.done a) ha
  obtain ⟨-, hfinish⟩ := of_chainAs (of_restored hbuilt.of_done)
  have hcombined := (hfinish _ (.done b) (.done hb) rfl).of_bind
  exact hcombined.imp fun v hv => of_succeed hv.of_done

/-- **What is known of the sides of a race for the first success.** -/
theorem of_race {left right : Effect ε} (h : (left.race right).Guards c k) :
    left.Guards c .none ∧ right.Guards c .none := by
  have hrace : (left.race right).Guards c ⟨k.waits, k.tells⟩ := h
  obtain ⟨hleft, hright, -⟩ := of_raceFold hrace
  exact ⟨hleft, hright⟩

theorem of_collectAfter {es : List (Effect ε)} {values : List Value}
    (h : (Effect.collectAfter values es).Guards c ⟨waits, t⟩) :
    ∀ e ∈ es, ∃ t', Effect.Guards c ⟨waits, t'⟩ e := by
  induction es generalizing values with
  | nil => exact nofun
  | cons e es ih =>
    cases h with
    | chain he hnext =>
      exact List.forall_mem_cons.mpr
        ⟨⟨_, he⟩, ih (hnext .unit Value.Omits.unit.cleared).of_done⟩

/-- **What is known of the effects of a nursery.** -/
theorem of_collectAllPar {es : List (Effect ε)}
    (h : (Effect.collectAllPar es).Guards c ⟨waits, t⟩) : ∀ e ∈ es, Effect.Guards c .none e := by
  unfold Effect.collectAllPar at h
  split at h
  · next hnil =>
    obtain rfl := List.isEmpty_iff.mp hnil
    exact nofun
  · obtain ⟨⟨_, hforks⟩, -⟩ := of_chainAs (of_mask h ⟨true⟩)
    cases hforks with
    | suspend hcollect =>
      intro e he
      obtain ⟨_, hfork⟩ := of_collectAfter hcollect.of_done _ (List.mem_map_of_mem he)
      exact of_restored (of_fork hfork)

end Effect.Guards

/-! ### Effects that are private -/

/-- An effect that, for all that has not been told of a fiber, may be allowed to wait for it: it
keeps what it learns of the fiber to itself. -/
def Effect.IsPrivate (e : Effect ε) : Prop :=
  ∀ {c : FiberId} {t : Bool}, e.Guards c ⟨false, t⟩ → e.Guards c ⟨true, t⟩

namespace Effect

variable {left right : Effect ε}

theorem isPrivate_zipParWith {f : Value → Value → Action Value} :
    (left.zipParWith right f).IsPrivate := fun h =>
  have ⟨hleft, hright, hf⟩ := Guards.of_zipParWith h
  .zipParWith hleft hright hf

theorem isPrivate_race : (left.race right).IsPrivate := fun h =>
  have ⟨hleft, hright⟩ := Guards.of_race h
  .race hleft hright

theorem isPrivate_collectAllPar {es : List (Effect ε)} : (collectAllPar es).IsPrivate := fun h =>
  .collectAllPar (Guards.of_collectAllPar h)

end Effect

/-! ### Releases -/

namespace Release

theorem guards_insideOut {inner : Effect ε} {x : Exit Value Value} (hinner : inner.Guards c .none)
    (outer : ReleaseId) (hx : x.Omits c) :
    (insideOut inner outer x : Effect ε).Guards c .none :=
  (Effect.Guards.result (t := false) hinner).chainAs reads_exits fun _ hfirst =>
    .done (Effect.Guards.finishWith hfirst (Instruction.Guards.release outer hx))

theorem guards_mergeExits {exits : List Value} (hexits : ∀ v ∈ exits, v.Omits c) :
    (mergeExits exits : Effect ε).Guards c k := by
  have hread : ∀ x ∈ Effect.exitsOf exits, x.Omits c := fun x hx => by
    obtain ⟨v, hv, hread⟩ := List.mem_filterMap.mp hx
    exact reads_exits (hexits v hv).cleared hread
  unfold mergeExits
  split
  · next first second heq =>
    rw [heq] at hread
    exact Effect.Guards.ofExit (Exit.Holds.withFinalizer (hread _ List.mem_cons_self)
      (hread _ (.tail _ List.mem_cons_self)))
  · exact Instruction.guards_die _

theorem guards_atOnce {left right : Effect ε} (hleft : left.Guards c .none)
    (hright : right.Guards c .none) : (atOnce left right : Effect ε).Guards c .none :=
  (Effect.Guards.zipPar (t := false) (Effect.Guards.result hleft)
    (Effect.Guards.result hright)).chainAs reads_lists fun _ hexits =>
      .done (guards_mergeExits fun v hv => (hexits v hv).omits)

/-- A part of a release whose code panics dies of that. -/
theorem guards_part {built : Except Defect Instruction}
    (h : ∀ i, built = .ok i → i.Guards c .none) : (part built).Guards c .none := by
  cases built with
  | ok i => exact h i rfl
  | error d => exact Instruction.guards_die d

end Release

end Fibers
