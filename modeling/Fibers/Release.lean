import Fibers.Effect.Nursery

/-!
# Releases

What has been acquired is released for the exit of its use.  A failed release does not
hide why the use failed: what went wrong in the release is kept beside it.

Where several resources are released together, what the release of each of them does
is put together here, once it has been built.  A resource inside another one is
released before it, and the outer one is released whatever happened to the inner one;
resources that were acquired at once are released at once.

## Main definitions

* `ReleaseId.run`, `ReleaseId.runInto` — releasing for an exit.
* `Release.insideOut`, `Release.atOnce` — two resources released together.
-/

namespace Fibers

/-- The exit without its value. -/
def Exit.withoutValue (x : Exit Value Value) : Exit Value Value := x.map fun _ => .unit

namespace ReleaseId

variable {ε : ErrorType}

/-- Releases for the given exit. -/
def run (release : ReleaseId) (x : Exit Value Value) : Effect ε := Instruction.release release x

/-- Releases for an exit, and ends as that exit says with the failure of the
release alongside. -/
def runInto (release : ReleaseId) (x : Exit Value Value) : Effect ε :=
  Effect.finishWith x (release.run x.withoutValue)

end ReleaseId

namespace Release

variable {ε : ErrorType}

/-- Releases the inner resource, as has been built for it, and then the outer one,
whatever happened to the inner one. -/
def insideOut (inner : Effect ε) (outer : ReleaseId) (x : Exit Value Value) : Effect ε :=
  (inner.result : Effect ε).chainAs fun first : Exit Value Value =>
    pure (Effect.finishWith first (outer.run x))

/-- The exit of two releases at once; the failure of the left one is the primary
one. -/
def mergeExits (exits : List Value) : Effect ε :=
  match Effect.exitsOf exits with
  | [first, second] => .ofExit (first.withFinalizer second)
  | _ => .die (.mismatch "value" "the exits of two releases")

/-- Releases both resources at once, as has been built for them. -/
def atOnce (left right : Effect ε) : Effect ε :=
  ((left.result : Effect ε).zipPar (right.result : Effect ε)).chainAs fun exits : List Value =>
    pure (mergeExits exits)

end Release

end Fibers
