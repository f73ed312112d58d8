import Fibers.Machine.Operations
import Fibers.Release

/-!
# Carrying out releases

A release is built for an exit before it is carried out.  For a release that is made
of others, the parts that come first are built together with it, in order, so that
code of the program is called at one place; a panic in the code of a part is a defect
of that part only.

A release is younger than its parts, which is why building it comes to an end.

## Main definitions

* `World.buildRelease` — what a release does for an exit.

## Main results

* `World.buildRelease_code` — the release of a single resource is what its code builds.
-/

namespace Fibers

/-- What is built of a part of a release: its defect if its code panics. -/
def Release.part : Except Defect Instruction → Instruction
  | .ok i => i
  | .error d => .die d

namespace World

/-- Builds what a release does for an exit.  A release that has not been made, or whose
parts are not older than itself, does nothing. -/
def buildRelease (release : ReleaseId) (x : Exit Value Value) (w : World) :
    Except Defect Instruction × World :=
  match w.releases.get? release.index with
  | none => (.ok (.value .unit), w)
  | some (.code build) => (build x).run w
  | some (.nested type inner outer) =>
    if inner.index < release.index then
      let (first, w) := w.buildRelease inner x
      let whole : Effect type := Release.insideOut (Release.part first) outer x
      (.ok whole, w)
    else (.ok (.value .unit), w)
  | some (.both type left right) =>
    if left.index < release.index ∧ right.index < release.index then
      let (first, w) := w.buildRelease left x
      let (second, w) := w.buildRelease right x
      let whole : Effect type := Release.atOnce (Release.part first) (Release.part second)
      (.ok whole, w)
    else (.ok (.value .unit), w)
  | some (.within environment inner) =>
    if inner.index < release.index then
      match w.buildRelease inner x with
      | (.ok i, w) =>
        (.ok (.access fun outer => do
          let v ← environment outer
          pure (.provide v i)), w)
      | (.error d, w) => (.error d, w)
    else (.ok (.value .unit), w)
termination_by release.index

/-- The release of a single resource is what its code builds. -/
theorem buildRelease_code {w : World} {release : ReleaseId}
    {build : Exit Value Value → Action Instruction}
    (h : w.releases.get? release.index = some (.code build)) (x : Exit Value Value) :
    w.buildRelease release x = (build x).run w := by
  rw [buildRelease]
  simp [h]

end World

end Fibers
