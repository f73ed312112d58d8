import Fibers.Settings.Notation

/-!
# Settings

What a runtime can be told: how many workers it has, how many iterations a fiber may
run before others get their turn, and how its workers are called.  Settings are read
from a text that gives some of them; the others keep their standard values.

## Main definitions

* `Settings`, `Settings.check` — the settings, and whether a runtime can have them.
* `SettingsError`, `SettingsError.message` — why there are none.
* `Settings.ofText` — the settings of a text.
* `Settings.debug` — the text of a runtime when its structure is shown.
-/

namespace Fibers

/-- What a runtime can be told. -/
structure Settings where
  /-- How many workers there are; zero stands for one for each processor. -/
  workers : Nat := 0
  /-- How many iterations a fiber may run before others get their turn. -/
  budget : Nat := 2048
  /-- What the names of workers start with. -/
  workerName : String := "strand-worker"
  deriving DecidableEq, Repr, Inhabited

/-- Why a runtime cannot have some settings. -/
inductive SettingsFault where
  /-- Fibers could not run at all. -/
  | noBudget
  /-- Workers would have no name. -/
  | noName
  deriving DecidableEq, Repr, Inhabited

/-- Why there are no settings. -/
inductive SettingsError where
  /-- Their text could not be read. -/
  | unreadable
  /-- Their text does not give settings. -/
  | malformed
  /-- A runtime cannot have them. -/
  | invalid (fault : SettingsFault)
  deriving DecidableEq, Repr, Inhabited

/-- The message for a fault. -/
def SettingsFault.message : SettingsFault → String
  | .noBudget => "invalid configuration: yield_op_count must be at least 1"
  | .noName => "invalid configuration: thread_name_prefix must not be empty"

namespace Settings

/-- The fault that keeps a runtime from having some settings; the budget is looked at
first. -/
def fault? (s : Settings) : Option SettingsFault :=
  if s.budget = 0 then some .noBudget
  else if s.workerName.isEmpty then some .noName
  else none

/-- Settings that a runtime can have. -/
def check (s : Settings) : Except SettingsError Settings :=
  match s.fault? with
  | some fault => .error (.invalid fault)
  | none => .ok s

/-- How many workers there are, if the settings say so. -/
def workerCount? (s : Settings) : Option Nat := if s.workers = 0 then none else some s.workers

/-- The text of a runtime with these settings when its structure is shown. -/
def debug (s : Settings) : String :=
  s!"Runtime \x7b workers: {s.workers}, yield_op_count: {s.budget} \x7d"

/-- Gives one setting the value that a text has for its name. -/
def assign (s : Settings) : String × Notation.Scalar → Option Settings
  | ("worker_threads", .int n) => if n < 0 then none else some { s with workers := n.toNat }
  | ("yield_op_count", .int n) => if n < 0 then none else some { s with budget := n.toNat }
  | ("thread_name_prefix", .text name) => some { s with workerName := name }
  | _ => none

/-- The settings that a text gives; no name may come twice. -/
def ofEntries? (entries : List (String × Notation.Scalar)) : Option Settings :=
  if (entries.map Prod.fst).Nodup then entries.foldlM assign {} else none

/-- The settings of a text that a runtime can have. -/
def ofText (text : String) : Except SettingsError Settings :=
  match (Notation.entries? text).bind ofEntries? with
  | some s => s.check
  | none => .error .malformed

end Settings

end Fibers
