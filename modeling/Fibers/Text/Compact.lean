/-!
# Compact data text

The one-line text form in which values are written: no blanks, the fields of an
object in the order given, strings between double quotes.  Inside quotes only
the quote, the backslash and the control characters below the blank are spelled
out; every other character stands for itself.

## Main definitions

* `Compact.quote` — a string between quotes.
* `Compact.array`, `Compact.object` — a sequence and a list of named fields.
-/

namespace Fibers.Compact

/-- The digit of a number below sixteen, in lower case. -/
def hexDigit (n : Nat) : Char := "0123456789abcdef".toList.getD n '0'

/-- The characters that stand for one character between quotes. -/
def escape (c : Char) : List Char :=
  match c with
  | '"' => ['\\', '"']
  | '\\' => ['\\', '\\']
  | '\n' => ['\\', 'n']
  | '\r' => ['\\', 'r']
  | '\t' => ['\\', 't']
  | '\x08' => ['\\', 'b']
  | '\x0c' => ['\\', 'f']
  | c =>
    if c.toNat < 0x20 then
      ['\\', 'u', '0', '0', hexDigit (c.toNat / 16), hexDigit (c.toNat % 16)]
    else [c]

/-- A string between quotes. -/
def quote (s : String) : String := "\"" ++ String.ofList (s.toList.flatMap escape) ++ "\""

/-- Texts separated by commas. -/
def commas (items : List String) : String := String.intercalate "," items

/-- A sequence of texts. -/
def array (items : List String) : String := "[" ++ commas items ++ "]"

/-- An object with the given fields. -/
def object (fields : List (String × String)) : String :=
  "\x7b" ++ commas (fields.map fun field => quote field.1 ++ ":" ++ field.2) ++ "\x7d"

/-- The text of a truth value. -/
def bool (b : Bool) : String := if b then "true" else "false"

end Fibers.Compact
