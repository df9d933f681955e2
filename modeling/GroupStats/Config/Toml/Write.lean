import GroupStats.Config.Toml.Read

/-!
# Writing TOML documents

Settings are written as sections of scalar keys. A text is written in the first of four
string forms that shows it without escapes, tried in this order:

* a basic string `"…"`, for a text with no quote, backslash, line feed or control character;
* a literal string `'…'`, for one with no apostrophe, line feed or control character;
* a multi-line basic string `"""…"""`, for one with no backslash, no control character and no
  run of three quotes;
* a multi-line literal string `'''…'''`, for one with no control character and no run of three
  apostrophes.

A text none of them can show is written with escapes: as a multi-line basic string when it
holds a line feed, else as a basic string. A multi-line string starts on a new line when its
text holds a line feed. Tabs are never a reason to escape, but a basic string writes them
escaped.
-/

namespace GroupStats

namespace Toml

/-- What decides the form of a string: the longest runs of apostrophes and of double quotes,
and whether the text holds a control character other than a tab or a line feed, a backslash,
or a line feed. -/
structure Shape where
  apostrophes : Nat := 0
  quotes : Nat := 0
  controls : Bool := false
  backslash : Bool := false
  newline : Bool := false
  deriving DecidableEq, Repr

/-- The shape of a text; `a` and `q` count the apostrophes and quotes that just came. -/
def shapeFrom (s : Shape) (a q : Nat) : List Char → Shape
  | [] => s
  | c :: r =>
    let a := if c = '\'' then a + 1 else 0
    let q := if c = '"' then q + 1 else 0
    let s := { s with apostrophes := max s.apostrophes a, quotes := max s.quotes q }
    let s :=
      if c = '\\' then { s with backslash := true }
      else if c = '\t' then s
      else if c = '\n' then { s with newline := true }
      else if c.toNat ≤ 0x1f ∨ c.toNat = 0x7f then { s with controls := true }
      else s
    shapeFrom s a q r

/-- The shape of a text. -/
def shape (cs : List Char) : Shape := shapeFrom {} 0 0 cs

/-- The four forms of a TOML string. -/
inductive Form where
  | basic
  | literal
  | multiBasic
  | multiLiteral
  deriving DecidableEq, Repr

/-- The form a text of a given shape is written in. -/
def Shape.form (s : Shape) : Form :=
  if !s.controls ∧ !s.backslash ∧ s.quotes = 0 ∧ !s.newline then .basic
  else if !s.controls ∧ s.apostrophes = 0 ∧ !s.newline then .literal
  else if !s.controls ∧ !s.backslash ∧ s.quotes ≤ 2 then .multiBasic
  else if !s.controls ∧ s.apostrophes ≤ 2 then .multiLiteral
  else if s.newline then .multiBasic
  else .basic

/-- Four uppercase hexadecimal digits of a number below `0x10000`. -/
def hex4 (n : Nat) : List Char :=
  let h := (Nat.toDigits 16 n).map Char.toUpper
  List.replicate (4 - h.length) '0' ++ h

/-- The body of a basic string, `run` quotes having just been written raw. In a multi-line
string a line feed stays as it is and two quotes in a row may stand raw, the third escaped;
in a one-line string every quote is escaped. -/
def escapeBody (multi : Bool) : List Char → Nat → List Char
  | [], _ => []
  | c :: r, run =>
    if c = '"' then
      if run + 1 ≤ (if multi then 2 else 0) then '"' :: escapeBody multi r (run + 1)
      else '\\' :: '"' :: escapeBody multi r 0
    else
      let out : List Char :=
        if c = '\x08' then ['\\', 'b']
        else if c = '\t' then ['\\', 't']
        else if c = '\n' then (if multi then ['\n'] else ['\\', 'n'])
        else if c = '\x0c' then ['\\', 'f']
        else if c = '\r' then ['\\', 'r']
        else if c = '\\' then ['\\', '\\']
        else if c.toNat ≤ 0x1f ∨ c.toNat = 0x7f then '\\' :: 'u' :: hex4 c.toNat
        else [c]
      out ++ escapeBody multi r 0

/-- A text as a TOML string in the form its shape calls for. -/
def quote (s : String) : String :=
  let cs := s.toList
  let sh := shape cs
  let lead := if sh.newline then "\n" else ""
  match sh.form with
  | .basic => "\"" ++ String.ofList (escapeBody false cs 0) ++ "\""
  | .literal => "\x27" ++ s ++ "\x27"
  | .multiBasic => "\"\"\"" ++ lead ++ String.ofList (escapeBody true cs 0) ++ "\"\"\""
  | .multiLiteral => "\x27\x27\x27" ++ lead ++ s ++ "\x27\x27\x27"

/-- The text of a scalar value; `none` for an integer outside the signed 64-bit range, and for
values whose text is not kept. -/
def scalarText : Value → Option String
  | .str s => some (quote s)
  | .int i => if -maxInt - 1 ≤ i ∧ i ≤ maxInt then some (toString i) else none
  | .bool b => some (toString b)
  | _ => none

/-- A table of scalars as a section: its header, then a line per key. -/
def sectionText (name : String) (t : Table) : Option String := do
  let lines ← t.mapM fun (k, v) => do pure (k ++ " = " ++ (← scalarText v) ++ "\n")
  pure ("[" ++ name ++ "]\n" ++ String.join lines)

/-- A document of sections of scalars, a blank line between sections. -/
def render (sections : List (String × Table)) : Option String := do
  let texts ← sections.mapM fun (name, t) => sectionText name t
  pure ("\n".intercalate texts)

end Toml

end GroupStats
