import Fibers.Proofs.Holds

/-!
# What is acquired

A resource is put together of acquisitions of the program.  `Resource.Acquires` tells of all ways in
which it may be acquired: what has been acquired in the end, or with which failure; the story of it;
what has been handed to code that panicked; and which parts have been acquired inside of which
others.  What has been acquired is released on the spot where the rest could not be acquired.

Acquisitions at once are made by two fibers, and the one that goes on with both learns from their
exits what they have acquired.  For that it must be the only one who waits for them, which
`Workshop.Discreet` says.

## Main definitions

* `Resource.Composed` — how resources are put together.
* `Resource.Acquires` — how a resource is acquired.
* `Resource.Uses` — how it is used.
* `Workshop.Discreet` — nobody else waits for those who acquire the parts of a pair.

## Main results

* `Workshop.Tells.acquires` — **what is told of an acquisition.**
* `Workshop.Tells.uses` — **what is told of a use.**
-/

namespace Fibers

open Effect

/-! ### What has happened in a story -/

/-- What has been paired with a release. -/
def Episode.reserved? : Episode → Option ReleaseId
  | .reserved _ id _ => some id
  | _ => none

/-- Whose release has been called. -/
def Episode.called? : Episode → Option ReleaseId
  | .called id _ => some id
  | _ => none

/-- What has been acquired in the course of a story. -/
def reservedIn (st : Story) : List ReleaseId := st.filterMap (·.2.reserved?)

/-- What has been released in the course of a story. -/
def calledIn (st : Story) : List ReleaseId := st.filterMap (·.2.called?)

/-- Two fibers are started, and each has its own story. -/
def Story.fork (f l r : FiberId) (st st' : Story) : Story :=
  (f, .started l) :: (st ++ (f, .started r) :: st')

namespace Hold

/-- The parts that code releases. -/
def ids (hold : Hold) : List ReleaseId := hold.leaves.map Prod.fst

end Hold

/-- A failure, with what went wrong in a clean-up kept beside it. -/
def Halt.beside (ε : ErrorType) (h : Halt Failure) : Exit Value Value → Halt Failure
  | .done _ => (h.untag ε).tag ε
  | .halt cleanup => ((h.untag ε).append cleanup).tag ε

theorem Halt.withFinalizer_tag (ε : ErrorType) (h : Halt Failure) (y : Exit Value Value) :
    ((Exit.halt (h.untag ε) : Exit Value Value).withFinalizer y).tag ε = .halt (h.beside ε y) := by
  cases y <;> rfl

/-- How an acquisition has ended. -/
inductive Took where
  /-- A value has been acquired, and has to be released. -/
  | got (v : Value) (hold : Hold)
  /-- Nothing has been acquired. -/
  | failed (h : Halt Failure)

/-- The outcome of an acquisition. -/
def Took.outcome : Took → Outcome
  | .got v hold => .done (.reservation v hold.id)
  | .failed h => .halt h

namespace Resource

variable {ε : ErrorType}

/-- How a resource is put together; where it is calm, no code panics that transforms values. -/
inductive Composed (calm : Prop) : Resource ε → Prop where
  | bracketExit (acquire : Effect ε) (release : Value → Exit Value Value → Action (Effect ε)) :
      Composed calm (bracketExit acquire release)
  | fail (v : Value) : Composed calm (fail v)
  | suspend {build : Action (Resource ε)} :
      (∀ w m, (build.run w).1 = .ok m → Composed calm m) → Composed calm (suspend build)
  | map {m : Resource ε} {f : Value → Action Value} :
      Composed calm m → (calm → ∀ v, (f v).Calm) → Composed calm (m.map f)
  | chain {m : Resource ε} {f : Value → Action (Resource ε)} :
      Composed calm m → (∀ v w m', ((f v).run w).1 = .ok m' → Composed calm m') →
      Composed calm (m.chain f)
  | parZipWith {a b : Resource ε} {f : Value → Value → Action Value} :
      Composed calm a → Composed calm b → (calm → ∀ v v', (f v v').Calm) →
      Composed calm (a.parZipWith b f)
  | provideSome {f : Value → Action Value} {m : Resource ε} :
      (∀ v, (f v).Calm) → Composed calm m → Composed calm (provideSome f m)

/-- How a resource is acquired by a fiber: with which end, which story, what has been handed to code
that panicked with which defect, and what has been acquired inside of what. -/
inductive Acquires : Resource ε → FiberId → Took → Story → List (Defect × Hold) →
    List (ReleaseId × ReleaseId) → Prop where
  /-- A value has been acquired. -/
  | acquired {f : FiberId} {acquire : Effect ε}
      {release : Value → Exit Value Value → Action (Effect ε)} {v : Value} {id : ReleaseId} :
      Acquires (bracketExit acquire release) f (.got v (.single id (release v)))
        [(f, .ran acquire (.done v)), (f, .reserved v id (release v))] [] []
  /-- No value has been acquired. -/
  | refused {f : FiberId} {acquire : Effect ε}
      {release : Value → Exit Value Value → Action (Effect ε)} {h : Halt Failure} :
      Acquires (bracketExit acquire release) f (.failed h) [(f, .ran acquire (.halt h))] [] []
  | fail {f : FiberId} {v : Value} :
      Acquires (fail v) f (.failed ((Halt.of (.fail v) : Halt Value).tag ε)) [] [] []
  | built {f : FiberId} {build : Action (Resource ε)} {w : World} {m : Resource ε} {took : Took}
      {st : Story} {lost : List (Defect × Hold)} {inside : List (ReleaseId × ReleaseId)} :
      (build.run w).1 = .ok m → Acquires m f took st lost inside →
      Acquires (suspend build) f took st lost inside
  | unbuilt {f : FiberId} {build : Action (Resource ε)} {w : World} {d : Defect} :
      (build.run w).1 = .error d → Acquires (suspend build) f (.failed (.of (.die d))) [] [] []
  /-- The value has been transformed. -/
  | mapped {f : FiberId} {m : Resource ε} {g : Value → Action Value} {v v' : Value} {w : World}
      {hold : Hold} {st : Story} {lost : List (Defect × Hold)}
      {inside : List (ReleaseId × ReleaseId)} :
      Acquires m f (.got v hold) st lost inside → ((g v).run w).1 = .ok v' →
      Acquires (m.map g) f (.got v' hold) st lost inside
  /-- The code that should have transformed the value has panicked. -/
  | unmapped {f : FiberId} {m : Resource ε} {g : Value → Action Value} {v : Value} {w : World}
      {d : Defect} {hold : Hold} {st : Story} {lost : List (Defect × Hold)}
      {inside : List (ReleaseId × ReleaseId)} :
      Acquires m f (.got v hold) st lost inside → ((g v).run w).1 = .error d →
      Acquires (m.map g) f (.failed (.of (.die d))) st (lost ++ [(d, hold)]) inside
  | mapRefused {f : FiberId} {m : Resource ε} {g : Value → Action Value} {h : Halt Failure}
      {st : Story} {lost : List (Defect × Hold)} {inside : List (ReleaseId × ReleaseId)} :
      Acquires m f (.failed h) st lost inside → Acquires (m.map g) f (.failed h) st lost inside
  /-- Both have been acquired, one inside of the other. -/
  | chained {f : FiberId} {m : Resource ε} {g : Value → Action (Resource ε)} {v v' : Value}
      {id : ReleaseId} {outer inner : Hold} {st st' : Story} {lost lost' : List (Defect × Hold)}
      {inside inside' : List (ReleaseId × ReleaseId)} :
      Acquires m f (.got v outer) st lost inside →
      Acquires (suspend (g v)) f (.got v' inner) st' lost' inside' →
      Acquires (m.chain g) f (.got v' (.nested id ε inner outer)) (st ++ st') (lost ++ lost')
        (inside ++ (inside' ++ outer.ids.product (reservedIn st')))
  /-- The outer one has been released, since the inner one could not be acquired. -/
  | unchained {f : FiberId} {m : Resource ε} {g : Value → Action (Resource ε)} {v : Value}
      {h : Halt Failure} {y : Exit Value Value} {outer : Hold} {st st' st'' : Story}
      {lost lost' : List (Defect × Hold)} {inside inside' : List (ReleaseId × ReleaseId)} :
      Acquires m f (.got v outer) st lost inside →
      Acquires (suspend (g v)) f (.failed h) st' lost' inside' →
      outer.Releases (Exit.halt (h.untag ε)).withoutValue f st'' →
      Acquires (m.chain g) f (.failed (h.beside ε y)) (st ++ (st' ++ st'')) (lost ++ lost')
        (inside ++ (inside' ++ outer.ids.product (reservedIn st')))
  | chainRefused {f : FiberId} {m : Resource ε} {g : Value → Action (Resource ε)} {h : Halt Failure}
      {st : Story} {lost : List (Defect × Hold)} {inside : List (ReleaseId × ReleaseId)} :
      Acquires m f (.failed h) st lost inside → Acquires (m.chain g) f (.failed h) st lost inside
  /-- Both have been acquired at once. -/
  | paired {f l r : FiberId} {a b : Resource ε} {g : Value → Value → Action Value}
      {v v' u : Value} {w : World} {id : ReleaseId} {left right : Hold} {st st' : Story}
      {lost lost' : List (Defect × Hold)} {inside inside' : List (ReleaseId × ReleaseId)} :
      Acquires a l (.got v left) st lost inside → Acquires b r (.got v' right) st' lost' inside' →
      ((g v v').run w).1 = .ok u →
      Acquires (a.parZipWith b g) f (.got u (.both id ε left right)) (Story.fork f l r st st')
        (lost ++ lost') (inside ++ inside')
  /-- The code that should have combined the values has panicked. -/
  | unpaired {f l r : FiberId} {a b : Resource ε} {g : Value → Value → Action Value}
      {v v' : Value} {w : World} {d : Defect} {left right : Hold} {st st' : Story}
      {lost lost' : List (Defect × Hold)} {inside inside' : List (ReleaseId × ReleaseId)} :
      Acquires a l (.got v left) st lost inside → Acquires b r (.got v' right) st' lost' inside' →
      ((g v v').run w).1 = .error d →
      Acquires (a.parZipWith b g) f (.failed (.of (.die d))) (Story.fork f l r st st')
        (lost ++ lost' ++ [(d, left), (d, right)]) (inside ++ inside')
  /-- The left one has been released, since the right one could not be acquired. -/
  | rightRefused {f l r : FiberId} {a b : Resource ε} {g : Value → Value → Action Value}
      {v : Value} {h : Halt Failure} {y : Exit Value Value} {left : Hold} {st st' st'' : Story}
      {lost lost' : List (Defect × Hold)} {inside inside' : List (ReleaseId × ReleaseId)} :
      Acquires a l (.got v left) st lost inside → Acquires b r (.failed h) st' lost' inside' →
      left.Releases (Exit.halt (h.untag ε)).withoutValue f st'' →
      Acquires (a.parZipWith b g) f (.failed (h.beside ε y)) (Story.fork f l r st st' ++ st'')
        (lost ++ lost') (inside ++ inside')
  /-- The right one has been released, since the left one could not be acquired. -/
  | leftRefused {f l r : FiberId} {a b : Resource ε} {g : Value → Value → Action Value}
      {v : Value} {h : Halt Failure} {y : Exit Value Value} {right : Hold} {st st' st'' : Story}
      {lost lost' : List (Defect × Hold)} {inside inside' : List (ReleaseId × ReleaseId)} :
      Acquires a l (.failed h) st lost inside → Acquires b r (.got v right) st' lost' inside' →
      right.Releases (Exit.halt (h.untag ε)).withoutValue f st'' →
      Acquires (a.parZipWith b g) f (.failed (h.beside ε y)) (Story.fork f l r st st' ++ st'')
        (lost ++ lost') (inside ++ inside')
  | bothRefused {f l r : FiberId} {a b : Resource ε} {g : Value → Value → Action Value}
      {h h' : Halt Failure} {st st' : Story}
      {lost lost' : List (Defect × Hold)} {inside inside' : List (ReleaseId × ReleaseId)} :
      Acquires a l (.failed h) st lost inside → Acquires b r (.failed h') st' lost' inside' →
      Acquires (a.parZipWith b g) f
        (.failed (((h.untag ε).keepSibling (.halt (h'.untag ε))).tag ε)) (Story.fork f l r st st')
        (lost ++ lost') (inside ++ inside')
  | provided {f : FiberId} {g : Value → Action Value} {m : Resource ε} {v : Value}
      {id : ReleaseId} {calm : ∀ v, (g v).Calm} {hold : Hold} {st : Story}
      {lost : List (Defect × Hold)} {inside : List (ReleaseId × ReleaseId)} :
      Acquires m f (.got v hold) st lost inside →
      Acquires (provideSome g m) f (.got v (.within id g calm hold)) st lost inside
  | provideRefused {f : FiberId} {g : Value → Action Value} {m : Resource ε} {h : Halt Failure}
      {st : Story} {lost : List (Defect × Hold)} {inside : List (ReleaseId × ReleaseId)} :
      Acquires m f (.failed h) st lost inside →
      Acquires (provideSome g m) f (.failed h) st lost inside

/-- How a resource is used by a fiber. -/
inductive Uses (m : Resource ε) (g : Value → Action (Effect ε)) (allowed : Bool) (f : FiberId) :
    Outcome → Story → List (Defect × Hold) → List (ReleaseId × ReleaseId) → Prop where
  /-- The fiber has been stopped before the acquisition. -/
  | stopped {source : FiberId} : allowed = true →
      Uses m g allowed f (.halt (.of (.interrupt source))) [] [] []
  /-- Nothing has been acquired. -/
  | refused {h : Halt Failure} {st : Story} {lost : List (Defect × Hold)}
      {inside : List (ReleaseId × ReleaseId)} :
      Acquires m f (.failed h) st lost inside → Uses m g allowed f (.halt h) st lost inside
  /-- What has been acquired has been used, and released for the exit of the use. -/
  | used {v : Value} {w : World} {e : Effect ε} {o : Outcome} {y : Exit Value Value} {hold : Hold}
      {st st' : Story} {lost : List (Defect × Hold)} {inside : List (ReleaseId × ReleaseId)} :
      Acquires m f (.got v hold) st lost inside → ((guarded (g v)).run w).1 = .ok e →
      hold.Releases (o.untag ε).withoutValue f st' →
      Uses m g allowed f (((o.untag ε).withFinalizer y).tag ε)
        (st ++ ((f, .ran (Restore.apply ⟨allowed⟩ e) o) :: st')) lost inside

section Combinators

variable {calm : Prop} {m a b : Resource ε}

theorem composed_bracket (acquire : Effect ε) (release : Value → Action (Effect ε)) :
    (bracket acquire release).Composed calm := .bracketExit _ _

theorem composed_ofEffect (acquire : Effect ε) : (ofEffect acquire).Composed calm :=
  composed_bracket _ _

theorem composed_fiber (e : Effect ε) : (fiber e).Composed calm := composed_bracket _ _

theorem composed_as (h : m.Composed calm) (v : Value) : (m.as v).Composed calm :=
  .map h fun _ _ => .pure v

theorem composed_zipWith {f : Value → Value → Action Value} (ha : a.Composed calm)
    (hb : b.Composed calm) (hf : calm → ∀ v v', (f v v').Calm) : (a.zipWith b f).Composed calm := by
  refine .chain ha fun v w m hm => ?_
  obtain rfl := Except.ok.inj hm
  exact .map hb fun hall v' => hf hall v v'

theorem composed_zip (ha : a.Composed calm) (hb : b.Composed calm) : (a.zip b).Composed calm :=
  composed_zipWith ha hb fun _ _ _ => .pure _

theorem composed_parZip (ha : a.Composed calm) (hb : b.Composed calm) :
    (a.parZip b).Composed calm :=
  .parZipWith ha hb fun _ _ _ => .pure _

theorem composed_chainTap {f : Value → Action (Resource ε)} (hm : m.Composed calm)
    (hf : ∀ v w m', ((f v).run w).1 = .ok m' → m'.Composed calm) : (m.chainTap f).Composed calm := by
  refine .chain hm fun v w m' hm' => ?_
  rw [Action.run_bind_pure] at hm'
  cases hinner : ((f v).run w).1 with
  | ok inner =>
    rw [hinner] at hm'
    obtain rfl := Except.ok.inj hm'
    exact composed_as (hf v w inner hinner) v
  | error d =>
    rw [hinner] at hm'
    cases hm'

end Combinators

/-- What follows when the left side of a pair has been acquired first. -/
def awaitRight (f : Value → Value → Action Value) (left : Exit Value Value) (other : Fiber ε) :
    Action (Effect ε) :=
  pure ((other.awaitExit : Effect ε).chainAs fun right : Exit Value Value => settleBoth f left right)

/-- What follows when the right side has been acquired first. -/
def awaitLeft (f : Value → Value → Action Value) (right : Exit Value Value) (other : Fiber ε) :
    Action (Effect ε) :=
  pure ((other.awaitExit : Effect ε).chainAs fun left : Exit Value Value => settleBoth f left right)

end Resource

namespace Workshop

variable {budget minted : Nat} {s : Workshop} {record : List (FiberId × Event)}
  {calm : Prop} {ε : ErrorType}

/-- Frames that take the handles of the fibers that acquire the parts of a pair. -/
inductive PairFrame : Frame → Prop where
  | left {ε : ErrorType} (b : Resource ε) (f : Value → Value → Action Value) :
      PairFrame (leftFrame b.reserve (Resource.awaitRight f) (Resource.awaitLeft f))
  | right {ε : ErrorType} (f : Value → Value → Action Value) (l : Fiber ε) :
      PairFrame (rightFrame (Resource.awaitRight f) (Resource.awaitLeft f) l)

/-- Nobody else waits for the fibers that acquire the parts of a pair.  Who has started them hands
their handles to nobody; since fibers are known by numbers here, which any code might write down,
that is not so in every run. -/
def Discreet (s : Workshop) (record : List (FiberId × Event)) : Prop :=
  ∀ ⦃f w run frame⦄ ⦃ε : ErrorType⦄ ⦃a : Resource ε⦄, PairFrame frame →
    run.interruptible = false → run.stack.head? = some frame →
      (f, .iterated w run (.eval (.fork (Restore.apply ⟨false⟩ a.reserve) false))) ∈ record →
        ∃ first type, Confides s record f w.store.nextFiber first type

/-- What a fiber knows of what it has acquired. -/
inductive Acquired (record : List (FiberId × Event)) (calm : Prop) (f : FiberId) (m : Resource ε) :
    Outcome → Story → Nat → Prop where
  | got {v : Value} {hold : Hold} {st : Story} {lost : List (Defect × Hold)}
      {inside : List (ReleaseId × ReleaseId)} {n : Nat} :
      m.Acquires f (.got v hold) st lost inside → (calm → lost = []) → Finds record f n hold.Kept →
      Acquired record calm f m (.done (.reservation v hold.id)) st n
  | failed {h : Halt Failure} {st : Story} {lost : List (Defect × Hold)}
      {inside : List (ReleaseId × ReleaseId)} {n : Nat} :
      m.Acquires f (.failed h) st lost inside → (calm → lost = []) →
      Acquired record calm f m (.halt h) st n

/-! ### What is told of an acquisition -/

namespace Tells

variable {fiber : FiberId} {n : Nat} {run : RunState}

/-- What is built where it may panic is the acquisition of what has been built, or the panic. -/
theorem reserve_of_guarded {build : Action (Resource ε)} {w : World} {e : Effect ε}
    (h : ((guarded (do
      let m ← build
      pure m.reserve)).run w).1 = .ok e) :
    (∃ m, (build.run w).1 = .ok m ∧ e = m.reserve) ∨
      ∃ d, (build.run w).1 = .error d ∧ e = die d := by
  rw [guarded, Action.run_recover, Action.run_bind_pure] at h
  cases hbuild : (build.run w).1 with
  | ok m =>
    rw [hbuild] at h
    exact Or.inl ⟨m, rfl, (Except.ok.inj h).symm⟩
  | error d =>
    rw [hbuild] at h
    exact Or.inr ⟨d, rfl, (Except.ok.inj h).symm⟩

/-- What is acquired inside of something else is built first. -/
theorem acquires_guarded {build : Action (Resource ε)} {w : World} {e : Effect ε}
    (hfalse : run.interruptible = false)
    (h : ((guarded (do
      let m ← build
      pure m.reserve)).run w).1 = .ok e)
    (hbuilt : ∀ m, (build.run w).1 = .ok m → Tells s record fiber n run
      (.active run (.eval m.reserve)) (Acquired record calm fiber m)) :
    Tells s record fiber n run (.active run (.eval e))
      (Acquired record calm fiber (Resource.suspend build)) := by
  rcases reserve_of_guarded h with ⟨m, hm, rfl⟩ | ⟨d, hd, rfl⟩
  · refine (hbuilt m hm).mono ?_
    rintro o st k - (⟨hacquires, hlost, hkept⟩ | ⟨hacquires, hlost⟩)
    · exact .got (.built hm hacquires) hlost hkept
    · exact .failed (.built hm hacquires) hlost
  · exact done hfalse (.failed (.unbuilt hd) fun _ => rfl)

/-- An acquisition goes on with what has been acquired. -/
theorem onReserved {m : Resource ε} {next : Reservation → Action (Effect ε)}
    {Q : Outcome → Story → Nat → Prop} (hfalse : run.interruptible = false)
    (hm : ∀ r : RunState, r.interruptible = false → Tells s record fiber n r
      (.active r (.eval m.reserve)) (Acquired record calm fiber m))
    (hgot : ∀ v hold st lost inside k, n ≤ k → m.Acquires fiber (.got v hold) st lost inside →
      (calm → lost = []) → Finds record fiber k hold.Kept → ∀ w : World, Tells s record fiber k run
        (.active run (.ofBuilt ((next ⟨v, hold.id⟩).run w).1)) fun o st' k' => Q o (st ++ st') k')
    (hfailed : ∀ h st lost inside k, m.Acquires fiber (.failed h) st lost inside →
      (calm → lost = []) → Q (.halt h) st k) :
    Tells s record fiber n run (.active run (.eval (m.onReserved next).reserve)) Q := by
  refine chain hfalse (hm _ hfalse) ?_ ?_
  · rintro v st k hk (⟨hacquires, hlost, hkept⟩ | _) w
    exact hgot _ _ st _ _ k hk hacquires hlost hkept w
  · rintro h st k - (_ | ⟨hacquires, hlost⟩)
    exact hfailed h st _ _ k hacquires hlost


theorem acquires_bracketExit (hrun : Run budget (init minted) record s)
    (hfalse : run.interruptible = false) (acquire : Effect ε)
    (release : Value → Exit Value Value → Action (Effect ε)) :
    Tells s record fiber n run (.active run (.eval (Resource.bracketExit acquire release).reserve))
      (Acquired record calm fiber (Resource.bracketExit acquire release)) := by
  refine chain (P := fun o st _ => st = [(fiber, .ran acquire o)]) hfalse
    (code hfalse fun o => rfl) ?_ ?_
  · rintro v st k hk rfl w
    exact reserve hrun hfalse fun w m _ _ hkept => .got .acquired (fun _ => rfl) hkept
  · rintro h st k - rfl
    exact .failed .refused fun _ => rfl

theorem acquires_map {m : Resource ε} {f : Value → Action Value} (hfalse : run.interruptible = false)
    (hcalm : calm → ∀ v, (f v).Calm)
    (hm : ∀ r : RunState, r.interruptible = false → Tells s record fiber n r
      (.active r (.eval m.reserve)) (Acquired record calm fiber m)) :
    Tells s record fiber n run (.active run (.eval (m.map f).reserve))
      (Acquired record calm fiber (m.map f)) := by
  refine onReserved hfalse hm ?_ fun h st lost inside k hacquires hlost =>
    .failed (.mapRefused hacquires) hlost
  intro v hold st lost inside k hk hacquires hlost hkept w
  refine built_bind (fun v' hv' => done hfalse ?_) fun d hd => ?_
  · rw [List.append_nil]
    exact .got (.mapped hacquires hv') hlost hkept
  · rw [List.append_nil]
    refine .failed (.unmapped hacquires hd) fun hall => ?_
    obtain ⟨v', hv'⟩ := hcalm hall v w
    rw [hd] at hv'
    cases hv'

/-- What has been acquired is released for the failure of the rest. -/
theorem releases_runInto {hold : Hold} {h : Halt Failure} {Q : Outcome → Story → Nat → Prop}
    (hrun : Run budget (init minted) record s) (hfalse : run.interruptible = false)
    (hkept : Finds record fiber n hold.Kept)
    (hQ : ∀ st y m, hold.Releases (Exit.halt (h.untag ε)).withoutValue fiber st →
      Q (.halt (h.beside ε y)) st m) :
    Tells s record fiber n run (.active run (.eval
      (hold.id.runInto (.halt (h.untag ε)) : Effect ε))) Q := by
  refine (finishWith hfalse fun r hr => releases hrun hr hkept).mono ?_
  rintro o st m - ⟨o', hst, rfl⟩
  rw [Halt.withFinalizer_tag]
  exact hQ st _ m hst

theorem acquires_chain {m : Resource ε} {f : Value → Action (Resource ε)}
    (hrun : Run budget (init minted) record s) (hfalse : run.interruptible = false)
    (hm : ∀ r : RunState, r.interruptible = false → Tells s record fiber n r
      (.active r (.eval m.reserve)) (Acquired record calm fiber m))
    (hf : ∀ v w m' k, ((f v).run w).1 = .ok m' → ∀ r : RunState, r.interruptible = false →
      Tells s record fiber k r (.active r (.eval m'.reserve)) (Acquired record calm fiber m')) :
    Tells s record fiber n run (.active run (.eval (m.chain f).reserve))
      (Acquired record calm fiber (m.chain f)) := by
  refine onReserved hfalse hm ?_ fun h st lost inside k hacquires hlost =>
    .failed (.chainRefused hacquires) hlost
  intro v outer st lost inside k hk hacquires hlost hkept w
  refine built_bind (fun inner hinner => ?_) fun d hd => ?_
  · refine chain_result hfalse (fun r hr => acquires_guarded hr hinner fun m' hm' =>
      hf v w m' k hm' r hr) ?_
    rintro o st' k' hk' (⟨hacquires', hlost', hkept'⟩ | ⟨hacquires', hlost'⟩) w'
    · -- both have been acquired, and are released inside out
      refine reserve hrun hfalse fun w'' m' hm' hfound hentry => ?_
      rename_i v' hold lost' inside'
      change Acquired _ _ _ _ _ (st ++ (st' ++ [])) _
      rw [List.append_nil]
      refine .got (.chained hacquires hacquires') (fun hall => ?_) ?_
      · rw [hlost hall, hlost' hall]
        rfl
      · intro k'' w₃ run₃ step₃ hk'' hget
        exact ⟨hentry hk'' hget, (hfound hkept').lt_next, hkept'.mono hm' hk'' hget,
          (hkept.mono hk').mono hm' hk'' hget⟩
    · -- the outer one is released
      refine releases_runInto hrun hfalse (hkept.mono hk') fun st'' y m' hreleases => ?_
      refine .failed (.unchained hacquires hacquires' hreleases) fun hall => ?_
      rw [hlost hall, hlost' hall]
      rfl
  · obtain ⟨i, hi⟩ := run_guarded (do
      let m ← f v
      pure m.reserve) w
    cases hd.symm.trans hi

theorem acquires_provideSome {m : Resource ε} {f : Value → Action Value}
    (hrun : Run budget (init minted) record s) (hfalse : run.interruptible = false)
    (hf : ∀ v, (f v).Calm)
    (hm : ∀ r : RunState, r.interruptible = false → Tells s record fiber n r
      (.active r (.eval m.reserve)) (Acquired record calm fiber m)) :
    Tells s record fiber n run (.active run (.eval (Resource.provideSome f m).reserve))
      (Acquired record calm fiber (Resource.provideSome f m)) := by
  refine chain (P := Acquired record calm fiber m) hfalse ?_ ?_ ?_
  · -- the environment is made without a panic
    refine access hfalse fun w => built_bind (fun v _ => provide hfalse (hm _ hfalse)) fun d hd => ?_
    obtain ⟨v, hv⟩ := hf _ w
    cases hd.symm.trans hv
  · rintro v st k hk (⟨hacquires, hlost, hkept⟩ | _) w
    refine reserve hrun hfalse fun w' m' hm' hfound hentry => ?_
    rename_i v' hold lost inside
    change Acquired _ _ _ _ _ (st ++ []) _
    rw [List.append_nil]
    refine .got (@Resource.Acquires.provided _ _ _ _ _ _ hf _ _ _ _ hacquires) hlost ?_
    intro k'' w₃ run₃ step₃ hk'' hget
    exact ⟨hentry hk'' hget, (hfound hkept).lt_next, hkept.mono hm' hk'' hget⟩
  · rintro h st k - (_ | ⟨hacquires, hlost⟩)
    exact .failed (.provideRefused hacquires) hlost

/-! ### Acquisitions at once -/

/-- What a child has acquired whose exit has been waited for. -/
theorem acquired_of_awaited {a : Resource ε} {c : FiberId} {x : Exit Value Value} {st : Story}
    {frame : Frame} {k : Nat} (hrun : Run budget (init minted) record s)
    (hdiscreet : Discreet s record) (hframe : PairFrame frame)
    (hchild : Child s record fiber frame (Restore.apply ⟨false⟩ a.reserve)
      (fun c => Acquired record calm c a) c st)
    (hx : Awaited s record fiber ε c x k) :
    ∃ o m, Acquired record calm c a o st m ∧ x = o.untag ε ∧
      ∀ hold : Hold, Finds record c m hold.Kept → Finds record fiber k hold.Kept := by
  obtain ⟨o, m, hended, hacquired, hbequeaths⟩ := hchild.ended hx.finished
  obtain ⟨w, r, hmem, hmasked, htop, rfl⟩ := hchild.started
  obtain ⟨first, type, hconfides⟩ := hdiscreet hframe hmasked htop hmem
  obtain ⟨o', hended', rfl⟩ := hx.exit first type hconfides
  obtain rfl := hrun.ended_eq hended hended'
  exact ⟨o, m, hacquired, rfl, fun hold hkept =>
    hx.finds.inherit (hbequeaths (lasting_kept hold) hkept)⟩

/-- What follows on two acquisitions. -/
theorem acquires_settleBoth {a b : Resource ε} {f : Value → Value → Action Value} {l r : FiberId}
    {x y : Exit Value Value} {st₁ st₂ : Story} (hrun : Run budget (init minted) record s)
    (hdiscreet : Discreet s record) (hfalse : run.interruptible = false)
    (hcalm : calm → ∀ v v', (f v v').Calm)
    (hl : Child s record fiber
      (leftFrame b.reserve (Resource.awaitRight f) (Resource.awaitLeft f))
      (Restore.apply ⟨false⟩ a.reserve) (fun c => Acquired record calm c a) l st₁)
    (hr : Child s record fiber
      (rightFrame (Resource.awaitRight f) (Resource.awaitLeft f) (⟨l⟩ : Fiber ε))
      (Restore.apply ⟨false⟩ b.reserve) (fun c => Acquired record calm c b) r st₂)
    (hx : Awaited s record fiber ε l x n) (hy : Awaited s record fiber ε r y n) (w : World) :
    Tells s record fiber n run
      (.active run (.ofBuilt ((Resource.settleBoth f x y : Action (Effect ε)).run w).1))
      fun o st m => Acquired record calm fiber (a.parZipWith b f) o
        (Story.fork fiber l r st₁ st₂ ++ st) m := by
  obtain ⟨o₁, m₁, hacquired₁, rfl, hfinds₁⟩ := acquired_of_awaited hrun hdiscreet (.left b f) hl hx
  obtain ⟨o₂, m₂, hacquired₂, rfl, hfinds₂⟩ := acquired_of_awaited hrun hdiscreet (.right f ⟨l⟩) hr hy
  have hnone : ∀ {lost lost' : List (Defect × Hold)}, (calm → lost = []) → (calm → lost' = []) →
      calm → lost ++ lost' = [] := by
    intro lost lost' hlost hlost' hall
    rw [hlost hall, hlost' hall]
    rfl
  cases hacquired₁ with
  | @got v left _ lost inside _ hleft hlost₁ hkept₁ =>
    have hkept₁ := hfinds₁ left hkept₁
    cases hacquired₂ with
    | @got v' right _ lost' inside' _ hright hlost₂ hkept₂ =>
      have hkept₂ := hfinds₂ right hkept₂
      refine built_bind (fun u hu => ?_) fun d hd => ?_
      · refine reserve hrun hfalse fun w' m' hm' hfound hentry => ?_
        change Acquired _ _ _ _ _ (_ ++ []) _
        rw [List.append_nil]
        refine .got (.paired hleft hright hu) (hnone hlost₁ hlost₂) ?_
        intro k'' w₃ run₃ step₃ hk'' hget
        exact ⟨hentry hk'' hget, ⟨(hfound hkept₁).lt_next, (hfound hkept₂).lt_next⟩,
          hkept₁.mono hm' hk'' hget, hkept₂.mono hm' hk'' hget⟩
      · rw [List.append_nil]
        refine .failed (.unpaired hleft hright hd) fun hall => ?_
        obtain ⟨u, hu⟩ := hcalm hall v v' w
        cases hd.symm.trans hu
    | failed hright hlost₂ =>
      exact releases_runInto hrun hfalse hkept₁ fun st y m' hreleases =>
        .failed (.rightRefused hleft hright hreleases) (hnone hlost₁ hlost₂)
  | failed hleft hlost₁ =>
    cases hacquired₂ with
    | @got v' right _ lost' inside' _ hright hlost₂ hkept₂ =>
      exact releases_runInto hrun hfalse (hfinds₂ right hkept₂) fun st y m' hreleases =>
        .failed (.leftRefused hleft hright hreleases) (hnone hlost₁ hlost₂)
    | failed hright hlost₂ =>
      refine done hfalse ?_
      rw [List.append_nil]
      exact .failed (.bothRefused hleft hright) (hnone hlost₁ hlost₂)

theorem acquires_parZipWith {a b : Resource ε} {f : Value → Value → Action Value}
    (hrun : Run budget (init minted) record s) (hdiscreet : Discreet s record)
    (hfalse : run.interruptible = false) (hcalm : calm → ∀ v v', (f v v').Calm)
    (hleft : ∀ c, ∀ r : RunState, r.interruptible = false → Tells s record c 0 r
      (.active r (.eval a.reserve)) (Acquired record calm c a))
    (hright : ∀ c, ∀ r : RunState, r.interruptible = false → Tells s record c 0 r
      (.active r (.eval b.reserve)) (Acquired record calm c b)) :
    Tells s record fiber n run (.active run (.eval (a.parZipWith b f).reserve))
      (Acquired record calm fiber (a.parZipWith b f)) := by
  -- whichever has ended first, the other one is waited for
  have hother : ∀ {c : FiberId} {m : Nat} {r : RunState} {next : Exit Value Value → Action (Effect ε)}
      {Q : Outcome → Story → Nat → Prop}, r.interruptible = false →
      (∀ y m', m ≤ m' → Awaited s record fiber ε c y m' → ∀ w : World,
        Tells s record fiber m' r (.active r (.ofBuilt ((next y).run w).1)) Q) →
      Tells s record fiber m r (.active r (.eval
        (((⟨c⟩ : Fiber ε).awaitExit : Effect ε).chainAs next))) Q := by
    intro c m r next Q hr hnext
    refine chain (P := fun o st m' => ∃ y, o = .done (.exit y) ∧ st = [] ∧
      Awaited s record fiber ε c y m') hr ?_ ?_ ?_
    · exact awaitExit hrun hr fun y m' _ hfinished hfinds hexit =>
        ⟨y, rfl, rfl, hfinished, hfinds, hexit⟩
    · rintro v st m' hm' ⟨y, heq, rfl, hy⟩ w
      obtain rfl := Exit.done.inj heq
      exact hnext y m' hm' hy w
    · rintro h st m' - ⟨y, heq, -⟩
      cases heq
  have hlater : ∀ {c : FiberId} {x : Exit Value Value} {m m' : Nat},
      Awaited s record fiber ε c x m → m ≤ m' → Awaited s record fiber ε c x m' :=
    fun hx hle => ⟨hx.finished, hx.finds.mono hle, hx.exit⟩
  refine region_inner hfalse (raceFold (L := fun c => Acquired record calm c a)
    (R := fun c => Acquired record calm c b) hrun rfl
    (fun c environment _ => region_inner rfl (hleft c _ rfl))
    (fun c environment _ => region_inner rfl (hright c _ rfl)) ?_ ?_)
  · intro l r st₁ st₂ x m hm hl hr hx w run' hrun'
    refine hother hrun' fun y m' hm' hy w' => (acquires_settleBoth hrun hdiscreet hrun' hcalm hl
      hr (hlater hx hm') hy w').mono fun o st k _ hacquired => ?_
    simpa [Story.fork] using hacquired
  · intro l r st₁ st₂ y m hm hl hr hy w run' hrun'
    refine hother hrun' fun x m' hm' hx w' => (acquires_settleBoth hrun hdiscreet hrun' hcalm hl
      hr hx (hlater hy hm') w').mono fun o st k _ hacquired => ?_
    simpa [Story.fork] using hacquired

/-- **What is told of an acquisition.** -/
theorem acquires {m : Resource ε} (hm : m.Composed calm) (hrun : Run budget (init minted) record s)
    (hdiscreet : Discreet s record) (hfalse : run.interruptible = false) :
    Tells s record fiber n run (.active run (.eval m.reserve)) (Acquired record calm fiber m) := by
  induction hm generalizing fiber n run with
  | bracketExit acquire release => exact acquires_bracketExit hrun hfalse acquire release
  | fail v => exact done hfalse (.failed .fail fun _ => rfl)
  | suspend _ ih =>
    refine suspend hfalse fun w => built_bind (fun m hm => ?_) fun d hd =>
      .failed (.unbuilt hd) fun _ => rfl
    refine (ih w m hm hfalse).mono ?_
    rintro o st k - (⟨hacquires, hlost, hkept⟩ | ⟨hacquires, hlost⟩)
    · exact .got (.built hm hacquires) hlost hkept
    · exact .failed (.built hm hacquires) hlost
  | map _ hcalm ih => exact acquires_map hfalse hcalm fun r hr => ih hr
  | chain _ _ ih ihf =>
    exact acquires_chain hrun hfalse (fun r hr => ih hr) fun v w m' k hm' r hr => ihf v w m' hm' hr
  | parZipWith _ _ hcalm iha ihb =>
    exact acquires_parZipWith hrun hdiscreet hfalse hcalm (fun c r hr => iha hr)
      fun c r hr => ihb hr
  | provideSome hf _ ih => exact acquires_provideSome hrun hfalse hf fun r hr => ih hr

/-- **What is told of a use.** -/
theorem uses {m : Resource ε} {g : Value → Action (Effect ε)} (hm : m.Composed calm)
    (hrun : Run budget (init minted) record s) (hdiscreet : Discreet s record) :
    Tells s record fiber n run (.active run (.eval (m.use g))) fun o st _ =>
      ∃ lost inside, (calm → lost = []) ∧ m.Uses g run.interruptible fiber o st lost inside := by
  refine bracketExit (A := Acquired record calm fiber m)
    (U := fun v st o st' k => ∃ v' hold lost inside w e, v = .reservation v' hold.id ∧
      m.Acquires fiber (.got v' hold) st lost inside ∧ (calm → lost = []) ∧
      Finds record fiber k hold.Kept ∧ ((guarded (g v')).run w).1 = .ok e ∧
      st' = [(fiber, .ran (Restore.apply ⟨run.interruptible⟩ e) o)])
    (fun hallowed source => ⟨[], [], fun _ => rfl, .stopped hallowed⟩)
    (fun r hr => acquires hm hrun hdiscreet hr) ?_ ?_ ?_
  · rintro h st k - (_ | ⟨hacquires, hlost⟩)
    exact ⟨_, _, hlost, .refused hacquires⟩
  · rintro v st k - (⟨hacquires, hlost, hkept⟩ | _) w e he r hr
    exact code hr fun o => ⟨_, _, _, _, w, e, rfl, hacquires, hlost, hkept, he, rfl⟩
  · rintro v st o st' k - ⟨v', hold, lost, inside, w, e, rfl, hacquires, hlost, hkept, he, rfl⟩ w'
      finalizer hfinalizer r hr
    obtain rfl := Except.ok.inj hfinalizer
    refine (releases hrun hr hkept).mono fun o' st'' k' _ hreleases => ?_
    exact ⟨lost, inside, hlost, .used hacquires he hreleases⟩

end Tells

end Workshop

end Fibers
