import Fibers.Release

/-!
# Resources

A resource is an effect that acquires something together with its release.
`Resource.use` acquires with interruption not allowed, lets the use run as the
surroundings do, and releases exactly once, for the exit of the use and again with
interruption not allowed.  What goes wrong in a release is kept beside what went
wrong before.

Resources that are put together release in the reverse order of acquisition, or
both at once if they were acquired at once; if only one part could be acquired, it
is released before the failure surfaces.

## Main definitions

* `Resource` — an effect that ends with a reservation, with failures of a given
  type.
* `Resource.bracketExit`, `Resource.bracket`, `Resource.ofEffect` — simple ones.
* `Resource.use`, `Resource.allocate`, `LeaseId.release` — consumers.
* `Resource.chain`, `Resource.zipWith`, `Resource.parZipWith` — several as one.
* `Resource.fiber` — a fiber that lives as long as it is used.
-/

namespace Fibers

/-- A resource with failures of the given type. -/
structure Resource (type : ErrorType) where
  /-- The effect that acquires it. -/
  reserve : Effect type

/-- An acquired value and its release. -/
structure Reservation where
  /-- The value. -/
  value : Value
  /-- The release. -/
  release : ReleaseId

instance : Carried Reservation :=
  ⟨"Reservation", fun r => .reservation r.value r.release, fun
    | .reservation v release => some ⟨v, release⟩
    | _ => none⟩

namespace Resource

variable {ε : ErrorType}

/-! ### Simple resources -/

/-- Pairs an acquired value with its release. -/
def reservation (v : Value) (release : Release) : Effect ε := Instruction.reserve v release

/-- Acquired by `acquire`, released by `release` for the exit of the use, of which
only a failure shows. -/
def bracketExit (acquire : Effect ε) (release : Value → Exit Value Value → Action (Effect ε)) :
    Resource ε :=
  ⟨acquire.chain fun v => pure (reservation v (.code (release v)))⟩

/-- Acquired by `acquire`, released by `release`. -/
def bracket (acquire : Effect ε) (release : Value → Action (Effect ε)) : Resource ε :=
  bracketExit acquire fun v _ => release v

/-- The value of an effect, with nothing to release. -/
def ofEffect (acquire : Effect ε) : Resource ε := bracket acquire fun _ => pure .unit

/-- A value with nothing to release. -/
def succeed (v : Value) : Resource ε := ofEffect (.succeed v)

/-- A resource that cannot be acquired. -/
def fail (v : Value) : Resource ε := ⟨.fail v⟩

/-- Describes a resource only when it is acquired. -/
def suspend (build : Action (Resource ε)) : Resource ε :=
  ⟨.suspend do
    let m ← build
    pure m.reserve⟩

/-- A fiber that runs the effect; it is stopped in the end.  The fiber starts while
interruption is not allowed, and could not be stopped if it kept to that. -/
def fiber (e : Effect ε) : Resource ε :=
  bracket e.interruptible.fork
    (Effect.expecting fun f : Fiber ε => pure (f.interrupt : Effect ε).asUnit)

/-! ### Consumers -/

/-- Acquires the resource, uses it and releases it. -/
def use (m : Resource ε) (f : Value → Action (Effect ε)) : Effect ε :=
  Effect.bracketExit m.reserve
    (Effect.expecting fun r : Reservation => f r.value)
    fun held x =>
      Effect.expecting (fun r : Reservation => pure (r.release.run x.withoutValue)) held

/-- What follows an acquisition whose release is left to the caller: a lease, or
the release if the fiber has been asked to stop meanwhile. -/
def handOver (r : Reservation) : Exit Value Value → Action (Effect ε)
  | .done _ => do
    let lease ← Action.newLease r.release
    pure (.succeed (.lease lease r.value))
  | .halt h => pure (r.release.runInto (.halt h))

/-- Acquires the resource and leaves the release to the caller. -/
def allocate (m : Resource ε) : Effect ε :=
  Effect.mask fun restore => pure <|
    m.reserve.chainAs fun r : Reservation => pure <|
      ((restore.apply (.unit : Effect ε)).result : Effect ε).chainAs
        (handOver r : Exit Value Value → Action (Effect ε))

/-! ### Several resources as one -/

/-- Changes what an acquisition ends with. -/
def onReserved (m : Resource ε) (f : Reservation → Action (Effect ε)) : Resource ε :=
  ⟨m.reserve.chainAs f⟩

/-- Transforms the value. -/
def map (m : Resource ε) (f : Value → Action Value) : Resource ε :=
  m.onReserved fun r => do
    let v ← f r.value
    pure (.give { r with value := v })

/-- Replaces the value. -/
def as (m : Resource ε) (v : Value) : Resource ε := m.map fun _ => pure v

/-- What follows the attempt to acquire an inner resource: both as one, or the
release of the outer one. -/
def settleInner (outer : Reservation) : Exit Value Value → Action (Effect ε)
  | .done inner =>
    Effect.expecting
      (fun r : Reservation =>
        pure (reservation r.value (.nested ε r.release outer.release)))
      inner
  | .halt h => pure (outer.release.runInto (.halt h))

/-- The resource, and inside it the one that is made from its value. -/
def chain (m : Resource ε) (f : Value → Action (Resource ε)) : Resource ε :=
  m.onReserved fun outer => do
    let inner ← Effect.guarded do
      let m ← f outer.value
      pure m.reserve
    pure ((inner.result : Effect ε).chainAs
      (settleInner outer : Exit Value Value → Action (Effect ε)))

/-- The resource, and inside it the one that is made from its value, with the value
of the first. -/
def chainTap (m : Resource ε) (f : Value → Action (Resource ε)) : Resource ε :=
  m.chain fun v => do
    let inner ← f v
    pure (inner.as v)

/-- Both, the second inside the first, with a combination of their values. -/
def zipWith (a b : Resource ε) (f : Value → Value → Action Value) : Resource ε :=
  a.chain fun x => pure (b.map fun y => f x y)

/-- Both, the second inside the first, with the pair of their values. -/
def zip (a b : Resource ε) : Resource ε := a.zipWith b fun x y => pure (.pair x y)

/-- Acquires and releases in an environment made from the one around. -/
def provideSome (f : Value → Action Value) (m : Resource ε) : Resource ε :=
  onReserved ⟨m.reserve.provideSome f⟩ fun r =>
    pure (reservation r.value (.within f r.release))

/-! ### Both at once -/

/-- What follows two attempts to acquire: both as one, the release of the one that
succeeded, or the failures of both. -/
def settleBoth (f : Value → Value → Action Value) :
    Exit Value Value → Exit Value Value → Action (Effect ε)
  | .done a, .done b =>
    Effect.expecting
      (fun left : Reservation => Effect.expecting
        (fun right : Reservation => do
          let v ← f left.value right.value
          pure (reservation v (.both ε left.release right.release)))
        b)
      a
  | .done a, .halt h =>
    Effect.expecting (fun r : Reservation => pure (r.release.runInto (.halt h))) a
  | .halt h, .done b =>
    Effect.expecting (fun r : Reservation => pure (r.release.runInto (.halt h))) b
  | .halt first, .halt second => pure (.halt (first.keepSibling (.halt second)))

/-- Both, acquired at once and released at once, with a combination of their
values. -/
def parZipWith (a b : Resource ε) (f : Value → Value → Action Value) : Resource ε :=
  ⟨(Effect.raceFold a.reserve b.reserve
    (fun left other => pure ((other.awaitExit : Effect ε).chainAs fun right : Exit Value Value =>
      settleBoth f left right))
    fun right other => pure ((other.awaitExit : Effect ε).chainAs fun left : Exit Value Value =>
      settleBoth f left right)).uninterruptible⟩

/-- Both, acquired at once and released at once, with the pair of their values. -/
def parZip (a b : Resource ε) : Resource ε := a.parZipWith b fun x y => pure (.pair x y)

end Resource

namespace LeaseId

variable {ε : ErrorType}

/-- Releases the resource for the given exit, of which only a failure shows, unless
it has been released. -/
def releaseExit (lease : LeaseId) (x : Exit Value Value) : Effect ε :=
  Effect.uninterruptible (Instruction.releaseLease lease x.withoutValue)

/-- Releases the resource as after a successful use, unless it has been
released. -/
def release (lease : LeaseId) : Effect ε := lease.releaseExit (.done .unit)

end LeaseId

end Fibers
