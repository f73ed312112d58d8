import Fibers.Failure.Defect
import Fibers.Text.Visible

/-!
# Shown text

The text form in which messages appear when the structure around them is shown:
between double quotes, with the quote, the backslash and all that cannot be seen alone
spelled out.

## Main definitions

* `Shown.quote` — a string between quotes.
* `Defect.debug` — the text of a defect when its structure is shown.
-/

namespace Fibers

namespace Shown

/-- The hexadecimal digits of a number, without leading zeros. -/
def hex (n : Nat) : List Char := Nat.toDigits 16 n

/-- The characters that stand for one character between quotes. -/
def escape (c : Char) : List Char :=
  match c with
  | '"' => ['\\', '"']
  | '\\' => ['\\', '\\']
  | '\n' => ['\\', 'n']
  | '\r' => ['\\', 'r']
  | '\t' => ['\\', 't']
  | '\x00' => ['\\', '0']
  | c => if isVisibleAlone c then [c] else ['\\', 'u', '\x7b'] ++ hex c.toNat ++ ['\x7d']

/-- A string between quotes. -/
def quote (s : String) : String := "\"" ++ String.ofList (s.toList.flatMap escape) ++ "\""

end Shown

/-- The text of a defect when its structure is shown. -/
def Defect.debug (d : Defect) : String :=
  "Defect \x7b kind: " ++ d.kind.name ++ ", message: " ++ Shown.quote d.message ++ " \x7d"

end Fibers
