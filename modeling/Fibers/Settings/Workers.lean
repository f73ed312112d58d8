import Fibers.Failure.Defect
import Fibers.Settings.Basic

/-!
# Starting workers

Workers are set up all at once and then started one after the other.  There can be no
more of them than memory can be asked for.  Every worker has a name, made of the start
that all names share and of the number of the worker; the system takes a null character
for the end of a name, so a name that holds one is refused.

## Main definitions

* `Settings.nameOf` — the name of a worker.
* `crowdDefect?`, `nameDefect?` — why a number of workers cannot be set up, and why a
  name cannot be given.
* `Settings.startDefect?` — why the workers of some settings cannot be started.
-/

namespace Fibers

/-- How many workers memory can be asked for: a worker takes 32 bytes, and the size of
what is asked for has 63 bits. -/
def mostWorkers : Nat := (1 <<< 63 - 1) / 32

/-- The defect of setting up a number of workers. -/
def crowdDefect? (workers : Nat) : Option Defect :=
  if workers ≤ mostWorkers then none else some (.ofPanic (.message "capacity overflow"))

/-- Numbers between square brackets. -/
def bracketed (numbers : List Nat) : String :=
  "[" ++ ", ".intercalate (numbers.map toString) ++ "]"

/-- The defect of giving something a name that holds a null character: it says where
the first one is, and what the name is in UTF-8. -/
def nameDefect? (name : String) : Option Defect :=
  let bytes := name.toUTF8.toList.map UInt8.toNat
  (bytes.idxOf? 0).map fun i =>
    .ofPanic <| .message <|
      s!"thread name may not contain interior null bytes: NulError({i}, {bracketed bytes})"

namespace Settings

/-- The name of the worker with a number. -/
def nameOf (s : Settings) (worker : Nat) : String := s!"{s.workerName}-{worker}"

/-- The defect of starting workers with these settings.  Names differ only after the
start that they share, so that of the first worker stands for all. -/
def startDefect? (s : Settings) : Option Defect :=
  (crowdDefect? s.workers).or (nameDefect? (s.nameOf 0))

end Settings

end Fibers
