/-!
# The notation of settings

Settings are written one to a line, as a name, an equals sign and a value, with
comments from a hash sign to the end of the line.  Names are bare words or quoted;
values are integers in decimal, hexadecimal, octal or binary notation, or texts.  A
text stands between double quotes, where a backslash starts an escape, or between
single quotes, where every character stands for itself; between three quotes either
may run over several lines.

## Main definitions

* `Scalar` — the values.
* `Quoting`, `textLine?`, `textBlock?` — texts on one line and on several.
* `integer?` — integers.
* `entries?` — all names and values of a text.

## Main results

* `length_textLine?`, `length_textBlock?`, `length_entry?`, … — what is left of a text
  after reading something from it is not longer than before, and shorter after a line.
-/

namespace Fibers.Notation

/-- A value. -/
inductive Scalar where
  /-- An integer. -/
  | int (n : Int)
  /-- A text. -/
  | text (s : String)
  deriving DecidableEq, Repr, Inhabited

/-! ### Characters and lines -/

/-- The characters that separate words. -/
def isBlank (c : Char) : Bool := c == ' ' || c == '\t'

/-- The characters that may stand for themselves in texts and comments: all but the
control characters, of which only the tab may. -/
def isPlain (c : Char) : Bool := c == '\t' || (0x20 ≤ c.toNat && c.toNat != 0x7f)

/-- The characters of bare names. -/
def isBare (c : Char) : Bool := c.isAlphanum || c == '_' || c == '-'

theorem length_dropWhile (p : Char → Bool) (s : List Char) :
    (s.dropWhile p).length ≤ s.length := (List.dropWhile_sublist p).length_le

/-- What follows the end of a line, if the text starts with one. -/
def newline? : List Char → Option (List Char)
  | '\n' :: r => some r
  | '\r' :: '\n' :: r => some r
  | _ => none

theorem length_newline? {s r : List Char} (h : newline? s = some r) : r.length < s.length := by
  unfold newline? at h
  split at h
  · simp_all
  · obtain rfl := Option.some.inj h
    simp only [List.length_cons]
    omega
  · simp at h

/-- What follows a comment, if the text starts with one. -/
def skipComment : List Char → List Char
  | '#' :: r => r.dropWhile isPlain
  | s => s

theorem length_skipComment (s : List Char) : (skipComment s).length ≤ s.length := by
  unfold skipComment
  split
  · exact Nat.le_succ_of_le (length_dropWhile ..)
  · exact Nat.le_refl _

/-- What follows the end of a line, if nothing else but blanks and a comment comes
before it. -/
def lineEnd? (s : List Char) : Option (List Char) :=
  match skipComment (s.dropWhile isBlank) with
  | [] => some []
  | rest => newline? rest

theorem length_lineEnd? {s r : List Char} (h : lineEnd? s = some r) :
    r.length ≤ s.length - 1 := by
  have hskip := length_skipComment (s.dropWhile isBlank)
  have hblank := length_dropWhile isBlank s
  unfold lineEnd? at h
  split at h
  · simp_all
  · have := length_newline? h
    omega

/-! ### Escapes -/

/-- The value of a digit in a base up to sixteen. -/
def digit? (base : Nat) (c : Char) : Option Nat :=
  let value :=
    if '0' ≤ c ∧ c ≤ '9' then some (c.toNat - '0'.toNat)
    else if 'a' ≤ c ∧ c ≤ 'f' then some (c.toNat - 'a'.toNat + 10)
    else if 'A' ≤ c ∧ c ≤ 'F' then some (c.toNat - 'A'.toNat + 10)
    else none
  value.filter (· < base)

/-- The number that digits stand for. -/
def number? (base : Nat) (digits : List Char) : Option Nat :=
  digits.foldlM (fun n c => (digit? base c).map (base * n + ·)) 0

/-- The character whose number is given by the first `count` characters, in
hexadecimal notation, and what follows. -/
def numbered? (count : Nat) (s : List Char) : Option (Char × List Char) :=
  if s.length < count then none
  else
    match number? 16 (s.take count) with
    | none => none
    | some n => if n.isValidChar then some (Char.ofNat n, s.drop count) else none

/-- The character that an escape stands for, and what follows. -/
def escape? : List Char → Option (Char × List Char)
  | 'b' :: r => some ('\x08', r)
  | 't' :: r => some ('\t', r)
  | 'n' :: r => some ('\n', r)
  | 'f' :: r => some ('\x0c', r)
  | 'r' :: r => some ('\r', r)
  | '"' :: r => some ('"', r)
  | '\\' :: r => some ('\\', r)
  | 'u' :: r => numbered? 4 r
  | 'U' :: r => numbered? 8 r
  | _ => none

theorem length_numbered? {count : Nat} {s r : List Char} {c : Char}
    (h : numbered? count s = some (c, r)) : r.length ≤ s.length := by
  unfold numbered? at h
  split at h
  · simp at h
  · split at h
    · simp at h
    · split at h
      · simp only [Option.some.injEq, Prod.mk.injEq] at h
        rw [← h.2]
        simp
      · simp at h

theorem length_escape? {s r : List Char} {c : Char} (h : escape? s = some (c, r)) :
    r.length ≤ s.length := by
  unfold escape? at h
  split at h
  case h_8 => exact Nat.le_succ_of_le (length_numbered? h)
  case h_9 => exact Nat.le_succ_of_le (length_numbered? h)
  case h_10 => simp at h
  all_goals
    simp only [Option.some.injEq, Prod.mk.injEq] at h
    rw [← h.2]
    simp

/-! ### Texts -/

/-- A way to write texts. -/
structure Quoting where
  /-- The character around them. -/
  quote : Char
  /-- Whether a backslash starts an escape. -/
  escapes : Bool
  deriving DecidableEq, Repr, Inhabited

/-- Texts with escapes. -/
def Quoting.double : Quoting := ⟨'"', true⟩

/-- Texts in which every character stands for itself. -/
def Quoting.single : Quoting := ⟨'\'', false⟩

/-- Puts a character in front of a text that has been read. -/
def before (c : Char) (read : Option (List Char × List Char)) : Option (List Char × List Char) :=
  read.map fun (text, rest) => (c :: text, rest)

theorem before_eq_some {c : Char} {read : Option (List Char × List Char)} {t r : List Char}
    (h : before c read = some (t, r)) : ∃ t', read = some (t', r) := by
  obtain ⟨⟨t', r'⟩, hread, heq⟩ := Option.map_eq_some_iff.1 h
  cases heq
  exact ⟨t', hread⟩

/-- A text on one line, and what follows its closing quote. -/
def textLine? (q : Quoting) (s : List Char) : Option (List Char × List Char) :=
  match s with
  | [] => none
  | c :: r =>
    if c = q.quote then some ([], r)
    else if q.escapes ∧ c = '\\' then
      match _h : escape? r with
      | none => none
      | some (e, rest) => before e (textLine? q rest)
    else if isPlain c then before c (textLine? q r)
    else none
termination_by s.length
decreasing_by
  · have := length_escape? _h
    simp
    omega
  · simp

theorem length_textLine? {q : Quoting} {s t r : List Char} (h : textLine? q s = some (t, r)) :
    r.length ≤ s.length := by
  fun_induction textLine? q s generalizing t with
  | case1 => simp at h
  | case2 => simp_all
  | case3 => simp at h
  | case4 c s _ _ e rest hescape ih =>
    obtain ⟨t', hread⟩ := before_eq_some h
    have := length_escape? hescape
    have := ih hread
    simp only [List.length_cons]
    omega
  | case5 c s _ _ _ ih =>
    obtain ⟨t', hread⟩ := before_eq_some h
    exact Nat.le_succ_of_le (ih hread)
  | case6 => simp at h

/-- Whether nothing but blanks comes before the end of the line. -/
def endsLine (s : List Char) : Bool := (newline? (s.dropWhile isBlank)).isSome

/-- The end of a text between three quotes, at a run of quotes: up to two of them
may belong to the text. -/
def closeBlock? (q : Quoting) (run : Nat) (s : List Char) : Option (List Char × List Char) :=
  if run ≤ 5 then some (List.replicate (run - 3) q.quote, s.drop run) else none

theorem length_closeBlock? {q : Quoting} {run : Nat} {s t r : List Char}
    (h : closeBlock? q run s = some (t, r)) : r.length ≤ s.length := by
  unfold closeBlock? at h
  split at h
  · cases h
    simp
  · simp at h

/-- A text that may run over several lines, and what follows its closing quotes.  A
backslash at the end of a line takes the end and all blanks and ends of lines after
it out of the text; `skipping` says that these are being passed. -/
def textBlock? (q : Quoting) (skipping : Bool) (s : List Char) :
    Option (List Char × List Char) :=
  match s with
  | [] => none
  | c :: r =>
    match _h : newline? (c :: r) with
    | some rest =>
      if skipping then textBlock? q true rest else before '\n' (textBlock? q false rest)
    | none =>
      let run := ((c :: r).takeWhile (· == q.quote)).length
      if skipping ∧ isBlank c then textBlock? q true r
      else if 3 ≤ run then closeBlock? q run (c :: r)
      else if q.escapes ∧ c = '\\' then
        if endsLine r then textBlock? q true r
        else
          match _h : escape? r with
          | none => none
          | some (e, rest) => before e (textBlock? q false rest)
      else if isPlain c then before c (textBlock? q false r)
      else none
termination_by s.length
decreasing_by
  · exact length_newline? _h
  · exact length_newline? _h
  · exact Nat.lt_succ_self r.length
  · exact Nat.lt_succ_self r.length
  · exact Nat.lt_succ_of_le (length_escape? _h)
  · exact Nat.lt_succ_self r.length

theorem length_textBlock? {q : Quoting} {skipping : Bool} {s t r : List Char}
    (h : textBlock? q skipping s = some (t, r)) : r.length ≤ s.length := by
  fun_induction textBlock? q skipping s generalizing t with
  | case1 => simp at h
  | case2 c s rest hline ih =>
    exact Nat.le_of_lt (Nat.lt_of_le_of_lt (ih h) (length_newline? hline))
  | case3 skipping c s rest hline hskip ih =>
    obtain ⟨t', hread⟩ := before_eq_some h
    exact Nat.le_of_lt (Nat.lt_of_le_of_lt (ih hread) (length_newline? hline))
  | case4 skipping c s hline hskip ih => exact Nat.le_succ_of_le (ih h)
  | case5 => exact length_closeBlock? h
  | case6 =>
    rename_i ih
    exact Nat.le_succ_of_le (ih h)
  | case7 => simp at h
  | case8 =>
    rename_i hescape ih
    obtain ⟨t', hread⟩ := before_eq_some h
    have := length_escape? hescape
    have := ih hread
    simp only [List.length_cons]
    omega
  | case9 =>
    rename_i ih
    obtain ⟨t', hread⟩ := before_eq_some h
    exact Nat.le_succ_of_le (ih hread)
  | case10 => simp at h

/-- What follows the end of the line that the text may start with. -/
def skipNewline (s : List Char) : List Char := (newline? s).getD s

theorem length_skipNewline (s : List Char) : (skipNewline s).length ≤ s.length := by
  unfold skipNewline
  cases h : newline? s with
  | none => exact Nat.le_refl _
  | some r => exact Nat.le_of_lt (length_newline? h)

/-! ### Integers -/

/-- The number that digits stand for which may be grouped by single underscores. -/
def grouped? (base : Nat) (s : List Char) : Option Nat :=
  if s.head? = some '_' ∨ s.getLast? = some '_' ∨ s = [] then none
  else if (s.zip s.tail).contains ('_', '_') then none
  else number? base (s.filter (· != '_'))

/-- The number that decimal digits stand for; only zero itself starts with a zero. -/
def decimal? (s : List Char) : Option Nat :=
  if s.head? = some '0' ∧ s ≠ ['0'] then none else grouped? 10 s

/-- The integer that a word stands for. -/
def integer? : List Char → Option Int
  | '0' :: 'x' :: r => (grouped? 16 r).map Int.ofNat
  | '0' :: 'o' :: r => (grouped? 8 r).map Int.ofNat
  | '0' :: 'b' :: r => (grouped? 2 r).map Int.ofNat
  | '+' :: r => (decimal? r).map Int.ofNat
  | '-' :: r => (decimal? r).map fun n => -Int.ofNat n
  | s => (decimal? s).map Int.ofNat

/-- Whether an integer fits into 64 bits. -/
def fits (n : Int) : Bool := -0x8000000000000000 ≤ n && n < 0x8000000000000000

/-! ### Entries -/

/-- A name, and what follows it. -/
def name? : List Char → Option (List Char × List Char)
  | '"' :: r => textLine? .double r
  | '\'' :: r => textLine? .single r
  | s =>
    if (s.takeWhile isBare).isEmpty then none
    else some (s.takeWhile isBare, s.dropWhile isBare)

theorem length_name? {s name r : List Char} (h : name? s = some (name, r)) :
    r.length ≤ s.length := by
  unfold name? at h
  split at h
  · exact Nat.le_succ_of_le (length_textLine? h)
  · exact Nat.le_succ_of_le (length_textLine? h)
  · split at h
    · simp at h
    · cases h
      exact length_dropWhile ..

/-- The characters that can be part of an integer. -/
def isWord (c : Char) : Bool := c.isAlphanum || c == '_' || c == '+' || c == '-'

/-- A text as a value. -/
def asText (read : Option (List Char × List Char)) : Option (Scalar × List Char) :=
  read.map fun (text, rest) => (.text (String.ofList text), rest)

theorem asText_eq_some {read : Option (List Char × List Char)} {v : Scalar} {r : List Char}
    (h : asText read = some (v, r)) : ∃ t, read = some (t, r) := by
  obtain ⟨⟨t, r'⟩, hread, heq⟩ := Option.map_eq_some_iff.1 h
  cases heq
  exact ⟨t, hread⟩

/-- A value, and what follows it. -/
def value? : List Char → Option (Scalar × List Char)
  | '"' :: '"' :: '"' :: r => asText (textBlock? .double false (skipNewline r))
  | '\'' :: '\'' :: '\'' :: r => asText (textBlock? .single false (skipNewline r))
  | '"' :: r => asText (textLine? .double r)
  | '\'' :: r => asText (textLine? .single r)
  | s =>
    match integer? (s.takeWhile isWord) with
    | some n => if fits n then some (.int n, s.dropWhile isWord) else none
    | none => none

theorem length_value? {s r : List Char} {v : Scalar} (h : value? s = some (v, r)) :
    r.length ≤ s.length := by
  unfold value? at h
  split at h
  case h_1 rest =>
    obtain ⟨t, hread⟩ := asText_eq_some h
    have := length_textBlock? hread
    have := length_skipNewline rest
    simp only [List.length_cons]
    omega
  case h_2 rest =>
    obtain ⟨t, hread⟩ := asText_eq_some h
    have := length_textBlock? hread
    have := length_skipNewline rest
    simp only [List.length_cons]
    omega
  case h_3 =>
    obtain ⟨t, hread⟩ := asText_eq_some h
    exact Nat.le_succ_of_le (length_textLine? hread)
  case h_4 =>
    obtain ⟨t, hread⟩ := asText_eq_some h
    exact Nat.le_succ_of_le (length_textLine? hread)
  case h_5 =>
    split at h
    · split at h
      · cases h
        exact length_dropWhile ..
      · simp at h
    · simp at h

/-- A name, an equals sign and a value, alone on a line, and what follows the
line. -/
def entry? (s : List Char) : Option ((String × Scalar) × List Char) := do
  let (name, rest) ← name? s
  match rest.dropWhile isBlank with
  | '=' :: rest =>
    let (v, rest) ← value? (rest.dropWhile isBlank)
    let rest ← lineEnd? rest
    pure ((String.ofList name, v), rest)
  | _ => none

theorem length_entry? {s r : List Char} {entry : String × Scalar}
    (h : entry? s = some (entry, r)) : r.length < s.length := by
  unfold entry? at h
  obtain ⟨⟨name, afterName⟩, hname, h⟩ := Option.bind_eq_some_iff.1 h
  have hn := length_name? hname
  have hb := length_dropWhile isBlank afterName
  simp only at h
  split at h
  · next rest heq =>
    obtain ⟨⟨v, afterValue⟩, hvalue, h⟩ := Option.bind_eq_some_iff.1 h
    obtain ⟨afterLine, hline, h⟩ := Option.bind_eq_some_iff.1 h
    cases h
    have hv := length_value? hvalue
    have hr := length_dropWhile isBlank rest
    have hl := length_lineEnd? hline
    rw [heq, List.length_cons] at hb
    simp only at hl
    omega
  · simp at h

/-- The names and values on the lines of a text, in order. -/
def lines? (s : List Char) : Option (List (String × Scalar)) :=
  match _h : s.dropWhile isBlank with
  | [] => some []
  | c :: rest =>
    match _hend : lineEnd? (c :: rest) with
    | some after => lines? after
    | none =>
      match _hentry : entry? (c :: rest) with
      | some (entry, after) => (lines? after).map (entry :: ·)
      | none => none
termination_by s.length
decreasing_by
  all_goals
    have := length_dropWhile isBlank s
    rw [_h] at this
    simp only [List.length_cons] at this
  · have := length_lineEnd? _hend
    simp only [List.length_cons] at this
    omega
  · have := length_entry? _hentry
    simp only [List.length_cons] at this
    omega

/-- The names and values of a text, which may start with a byte order mark. -/
def entries? (s : String) : Option (List (String × Scalar)) :=
  match s.toList with
  | '\ufeff' :: r => lines? r
  | r => lines? r

end Fibers.Notation
