/-!
# Defects

A defect is an unexpected failure, kept as data so that it can travel with the
failures a program expects.  It says where it came from and carries a message;
two defects with the same origin and message are the same defect.

## Main definitions

* `DefectKind` — where a defect came from.
* `Defect` — the defect itself, with `Defect.explicit`, `Defect.runtime` and
  `Defect.ofPanic` to make one.
* `PanicPayload` — what a panicking computation leaves behind.
* `Defect.display` — the text of a defect in messages.
-/

namespace Fibers

/-- Where a defect came from. -/
inductive DefectKind where
  /-- Code called by a fiber panicked. -/
  | panic
  /-- A program asked for it, or promoted an expected failure. -/
  | explicit
  /-- An invariant of the runtime did not hold. -/
  | runtime
  deriving DecidableEq, Repr, Inhabited

/-- An unexpected failure. -/
structure Defect where
  /-- Where it came from. -/
  kind : DefectKind
  /-- What it says. -/
  message : String
  deriving DecidableEq, Repr, Inhabited

/-- What a panicking computation leaves behind. -/
inductive PanicPayload where
  /-- A text. -/
  | message (text : String)
  /-- Something that holds no text. -/
  | other
  deriving DecidableEq, Repr, Inhabited

/-- The message read off a payload. -/
def PanicPayload.text : PanicPayload → String
  | .message text => text
  | .other => "unknown panic payload"

namespace Defect

/-- A defect a program asks for. -/
def explicit (message : String) : Defect := ⟨.explicit, message⟩

/-- A broken invariant of the runtime. -/
def runtime (message : String) : Defect := ⟨.runtime, message⟩

/-- A caught panic. -/
def ofPanic (payload : PanicPayload) : Defect := ⟨.panic, payload.text⟩

end Defect

/-- The word for a kind of defect in messages. -/
def DefectKind.label : DefectKind → String
  | .panic => "panic"
  | .explicit => "defect"
  | .runtime => "runtime defect"

/-- The name of a kind of defect when its structure is shown. -/
def DefectKind.name : DefectKind → String
  | .panic => "Panic"
  | .explicit => "Explicit"
  | .runtime => "Runtime"

/-- The text of a defect in messages. -/
def Defect.display (d : Defect) : String := s!"{d.kind.label}: {d.message}"

end Fibers
