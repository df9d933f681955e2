/-!
# Scanning TOML text

The lexical layer of the TOML reader: blanks and comments, strings of the four kinds, keys,
and the bare values — booleans, integers, floats, and dates and times.

Each reader takes the text from some point and gives back what it read with the rest of the
text. A bare value is read as the longest prefix the grammar allows; what follows it is
checked by the reader of the enclosing line, array or table. Reading a bare value distinguishes
two ways of failing: a `miss` leaves the text for another kind of value to try, while a `fail`
refuses the document. The second is what happens once a date, a number or an escape has
started and then breaks the grammar.
-/

namespace GroupStats

namespace Toml

/-- The outcome of reading a bare value: what was read with the rest of the text, no value of
this kind here, or a value of this kind that breaks the grammar. -/
inductive Scan (α : Type) where
  | hit (a : α) (rest : List Char)
  | miss
  | fail
  deriving Repr

/-- The deepest nesting of arrays and inline tables a document may use, and the most parts a
key may have; reaching either refuses the document. -/
def depthLimit : Nat := 80

/-! ### Blanks and comments -/

/-- Whether a character may stand in a bare key. -/
def isBareKeyChar (c : Char) : Bool := c.isAlphanum || c == '_' || c == '-'

/-- Drops spaces and tabs. -/
def skipSpaces : List Char → List Char
  | ' ' :: r => skipSpaces r
  | '\t' :: r => skipSpaces r
  | cs => cs

/-- Whether a character may stand in a comment: a tab, printable ASCII, or anything outside
ASCII. -/
def isCommentChar (c : Char) : Bool :=
  c == '\t' || (0x20 ≤ c.toNat && c.toNat ≤ 0x7e) || 0x80 ≤ c.toNat

/-- Drops a comment, if one starts here, up to the first character that may not stand in
it. -/
def skipComment : List Char → List Char
  | '#' :: r => r.dropWhile isCommentChar
  | cs => cs

/-- Drops a line end: a line feed, or a carriage return before one. -/
def newline? : List Char → Option (List Char)
  | '\n' :: r => some r
  | '\r' :: '\n' :: r => some r
  | _ => none

/-- Drops the end of a line after a value or a header: spaces, a comment if any, then a line
end or the end of the text. -/
def endLine (cs : List Char) : Option (List Char) :=
  match skipComment (skipSpaces cs) with
  | [] => some []
  | r => newline? r

/-- Drops the blanks between the items of an array: spaces, line ends, and comments, each of
which must end its line. At most `fuel` lines are dropped. -/
def skipBlank : Nat → List Char → Option (List Char)
  | 0, cs => some cs
  | fuel + 1, cs =>
    match skipSpaces cs with
    | '#' :: r => (newline? (skipComment ('#' :: r))).bind (skipBlank fuel)
    | '\n' :: r => skipBlank fuel r
    | '\r' :: r => (newline? ('\r' :: r)).bind (skipBlank fuel)
    | r => some r

/-- Drops spaces, tabs and line ends, at most `fuel` of them. A carriage return that does not
stand before a line feed stops it. -/
def skipSpacesAndLines : Nat → List Char → List Char
  | 0, cs => cs
  | fuel + 1, cs =>
    match cs with
    | ' ' :: r | '\t' :: r | '\n' :: r => skipSpacesAndLines fuel r
    | '\r' :: '\n' :: r => skipSpacesAndLines fuel r
    | _ => cs

/-! ### Strings -/

/-- The value of a run of hexadecimal digits. -/
def hexValue? (cs : List Char) : Option Nat :=
  cs.foldlM (fun n c =>
    if c.isDigit then some (16 * n + (c.toNat - '0'.toNat))
    else if 'a' ≤ c ∧ c ≤ 'f' then some (16 * n + (c.toNat - 'a'.toNat + 10))
    else if 'A' ≤ c ∧ c ≤ 'F' then some (16 * n + (c.toNat - 'A'.toNat + 10))
    else none) 0

/-- The character of a unicode escape of `n` hexadecimal digits. -/
def unicodeEscape (n : Nat) (cs : List Char) : Option (Char × List Char) := do
  let digits := cs.take n
  if digits.length ≠ n then none
  let v ← hexValue? digits
  if v ≥ 0x110000 ∨ (0xD800 ≤ v ∧ v < 0xE000) then none
  pure (Char.ofNat v, cs.drop n)

/-- Reads one escape after a backslash. -/
def escape : List Char → Option (Char × List Char)
  | 'b' :: r => some ('\x08', r)
  | 't' :: r => some ('\t', r)
  | 'n' :: r => some ('\n', r)
  | 'f' :: r => some ('\x0c', r)
  | 'r' :: r => some ('\r', r)
  | '"' :: r => some ('"', r)
  | '\\' :: r => some ('\\', r)
  | 'u' :: r => unicodeEscape 4 r
  | 'U' :: r => unicodeEscape 8 r
  | _ => none

/-- Whether a character may stand unescaped in a basic string: a tab, printable ASCII other
than a double quote or a backslash, or anything outside ASCII. -/
def isBasicChar (c : Char) : Bool :=
  c == '\t' || (0x20 ≤ c.toNat && c.toNat ≤ 0x7e && c != '"' && c != '\\') || 0x80 ≤ c.toNat

/-- Whether a character may stand in a literal string: a tab, printable ASCII other than an
apostrophe, or anything outside ASCII. -/
def isLiteralChar (c : Char) : Bool :=
  c == '\t' || (0x20 ≤ c.toNat && c.toNat ≤ 0x7e && c != '\'') || 0x80 ≤ c.toNat

/-- Reads a basic string after its opening quote, up to its closing quote, at most `fuel`
characters. -/
def basicString : Nat → List Char → Option (List Char × List Char)
  | 0, _ => none
  | _ + 1, [] => none
  | _ + 1, '"' :: r => some ([], r)
  | fuel + 1, '\\' :: r => do
    let (c, r) ← escape r
    let (s, r) ← basicString fuel r
    pure (c :: s, r)
  | fuel + 1, c :: r =>
    if isBasicChar c then (basicString fuel r).map fun (s, r) => (c :: s, r) else none

/-- Reads a literal string after its opening apostrophe, up to its closing one. -/
def literalString : List Char → Option (List Char × List Char)
  | [] => none
  | '\'' :: r => some ([], r)
  | c :: r => if isLiteralChar c then (literalString r).map fun (s, r) => (c :: s, r) else none

/-- Drops a line end right after the opening quotes of a multi-line string. -/
def trimFirstNewline (cs : List Char) : List Char := (newline? cs).getD cs

/-- Reads the body of a multi-line string up to three closing quotes `q` (four or five end it, the
extra ones kept), a line end read as a line feed, in at most `fuel` steps. With `escapes` the string
is a basic one: a backslash escapes, and one that ends a line drops the blanks and line ends after
it. -/
def multiline (q : Char) (escapes : Bool) : Nat → List Char → Option (List Char × List Char)
  | 0, _ => none
  | fuel + 1, cs =>
    let step (a : Char) (r : List Char) : Option (List Char × List Char) :=
      if escapes ∧ a = '\\' then
        match newline? (skipSpaces r) with
        | some r' => multiline q escapes fuel (skipSpacesAndLines r'.length r')
        | none => do
          let (c, r) ← escape r
          let (s, r) ← multiline q escapes fuel r
          pure (c :: s, r)
      else match newline? (a :: r) with
        | some r' => (multiline q escapes fuel r').map fun (s, r) => ('\n' :: s, r)
        | none =>
          if a = q ∨ (if escapes then isBasicChar a else isLiteralChar a) then
            (multiline q escapes fuel r).map fun (s, r) => (a :: s, r)
          else none
    match cs with
    | [] => none
    | a :: b :: c :: d :: e :: r =>
      if a = q ∧ b = q ∧ c = q ∧ d = q ∧ e = q then some ([q, q], r)
      else if a = q ∧ b = q ∧ c = q ∧ d = q then some ([q], e :: r)
      else if a = q ∧ b = q ∧ c = q then some ([], d :: e :: r)
      else step a (b :: c :: d :: e :: r)
    | a :: b :: c :: d :: [] =>
      if a = q ∧ b = q ∧ c = q ∧ d = q then some ([q], [])
      else if a = q ∧ b = q ∧ c = q then some ([], [d])
      else step a [b, c, d]
    | a :: b :: c :: [] => if a = q ∧ b = q ∧ c = q then some ([], []) else step a [b, c]
    | a :: r => step a r

/-- Reads a string of any of the four kinds, from its opening quote. -/
def string : List Char → Option (String × List Char)
  | '"' :: '"' :: '"' :: r =>
    let body := trimFirstNewline r
    (multiline '"' true (body.length + 1) body).map fun (s, r) => (String.ofList s, r)
  | '\'' :: '\'' :: '\'' :: r =>
    let body := trimFirstNewline r
    (multiline '\'' false (body.length + 1) body).map fun (s, r) => (String.ofList s, r)
  | '"' :: r => (basicString (r.length + 1) r).map fun (s, r) => (String.ofList s, r)
  | '\'' :: r => (literalString r).map fun (s, r) => (String.ofList s, r)
  | _ => none

/-! ### Keys -/

/-- Reads one key part: bare, or a one-line quoted string. -/
def keyPart (cs : List Char) : Option (String × List Char) :=
  match cs with
  | '"' :: r => (basicString (r.length + 1) r).map fun (s, r) => (String.ofList s, r)
  | '\'' :: r => (literalString r).map fun (s, r) => (String.ofList s, r)
  | _ =>
    let name := cs.takeWhile isBareKeyChar
    if name.isEmpty then none else some (String.ofList name, cs.drop name.length)

/-- Reads the parts of a dotted key, blanks around each, at most `fuel` parts. -/
def keyParts : Nat → List Char → Option (List String × List Char)
  | 0, _ => none
  | fuel + 1, cs => do
    let (k, r) ← keyPart (skipSpaces cs)
    match skipSpaces r with
    | '.' :: r => do
      let (ks, r) ← keyParts fuel r
      pure (k :: ks, r)
    | r => pure ([k], r)

/-- Reads a dotted key; a key of `depthLimit` parts or more is refused. -/
def key (cs : List Char) : Option (List String × List Char) := do
  let (ks, r) ← keyParts (cs.length + 1) cs
  if ks.length < depthLimit then some (ks, r) else none

/-! ### Numbers -/

/-- The value of a decimal digit. -/
def digitValue (c : Char) : Nat := c.toNat - '0'.toNat

/-- Reads exactly `n` decimal digits as a number. -/
def fixedDigits (n : Nat) (cs : List Char) : Option (Nat × List Char) :=
  let ds := (cs.take n).takeWhile Char.isDigit
  if ds.length = n then some (ds.foldl (fun v c => 10 * v + digitValue c) 0, cs.drop n) else none

/-- Reads digits satisfying `ok` after a first one, single underscores allowed between them;
an underscore not followed by a digit fails. Gives the digits read, underscores left out. -/
def digitTail (ok : Char → Bool) : List Char → Scan (List Char)
  | '_' :: c :: r =>
    if ok c then
      match digitTail ok r with
      | .hit ds rest => .hit (c :: ds) rest
      | o => o
    else .fail
  | ['_'] => .fail
  | c :: r =>
    if ok c then
      match digitTail ok r with
      | .hit ds rest => .hit (c :: ds) rest
      | o => o
    else .hit [] (c :: r)
  | [] => .hit [] []

/-- Reads a run of digits that may start with a zero. -/
def digitRun (ok : Char → Bool) : List Char → Scan (List Char)
  | c :: r =>
    if ok c then
      match digitTail ok r with
      | .hit ds rest => .hit (c :: ds) rest
      | o => o
    else .miss
  | [] => .miss

/-- Reads a decimal integer with an optional sign: one digit, or a nonzero digit and more.
Gives whether it is negative and its digits. -/
def decimal (cs : List Char) : Scan (Bool × List Char) :=
  let (negative, body) : Bool × List Char := match cs with
    | '+' :: r => (false, r)
    | '-' :: r => (true, r)
    | r => (false, r)
  match body with
  | '0' :: r => .hit (negative, ['0']) r
  | c :: r =>
    if c.isDigit then
      match digitTail Char.isDigit r with
      | .hit ds rest => .hit (negative, c :: ds) rest
      | .miss => .miss
      | .fail => .fail
    else .miss
  | [] => .miss

/-- The value of digits in a base. -/
def digitsValue (base : Nat) (cs : List Char) : Nat :=
  cs.foldl (fun n c =>
    let d := if c.isDigit then digitValue c
      else if 'a' ≤ c ∧ c ≤ 'f' then c.toNat - 'a'.toNat + 10
      else c.toNat - 'A'.toNat + 10
    base * n + d) 0

/-- The largest signed 64-bit integer. -/
def maxInt : Int := 9223372036854775807

/-- Checks that an integer fits in 64 signed bits. -/
def fitted (i : Int) (rest : List Char) : Scan Int :=
  if -maxInt - 1 ≤ i ∧ i ≤ maxInt then .hit i rest else .fail

/-- Reads the digits of an integer after a base prefix, at least one. -/
def prefixed (base : Nat) (ok : Char → Bool) (cs : List Char) : Scan Int :=
  match digitRun ok cs with
  | .hit ds rest => fitted (digitsValue base ds) rest
  | _ => .fail

/-- Reads an integer: hexadecimal, octal or binary after a prefix, or decimal with an optional
sign. One outside 64 signed bits fails. -/
def integer (cs : List Char) : Scan Int :=
  match cs with
  | '0' :: 'x' :: r =>
    prefixed 16 (fun c => c.isDigit || ('a' ≤ c ∧ c ≤ 'f') || ('A' ≤ c ∧ c ≤ 'F')) r
  | '0' :: 'o' :: r => prefixed 8 (fun c => '0' ≤ c ∧ c ≤ '7') r
  | '0' :: 'b' :: r => prefixed 2 (fun c => c == '0' || c == '1') r
  | _ =>
    match decimal cs with
    | .hit (negative, ds) rest =>
      let n : Int := digitsValue 10 ds
      fitted (if negative then -n else n) rest
    | .miss => .miss
    | .fail => .fail

/-- The number of decimal digits of a positive number. -/
def digitCount (n : Nat) : Nat := (Nat.toDigits 10 n).length

/-- The least value that rounds to infinity in binary64: halfway between the largest finite
value and the next power of two, where rounding to even goes up. -/
def overflowBound : Nat := Nat.pow 2 1024 - Nat.pow 2 970

/-- Whether `m · 10^e` rounds to infinity in binary64. -/
def roundsToInfinity (m : Nat) (e : Int) : Bool :=
  if m = 0 then false
  else
    let top : Int := (digitCount m : Int) + e
    if top ≤ 308 then false
    else if top > 309 then true
    else if 0 ≤ e then decide (m * Nat.pow 10 e.toNat ≥ overflowBound)
    else decide (m ≥ overflowBound * Nat.pow 10 (-e).toNat)

/-- Reads the exponent of a float after its `e`: an optional sign and digits. -/
def exponent (cs : List Char) : Scan Int :=
  let (negative, body) : Bool × List Char := match cs with
    | '+' :: r => (false, r)
    | '-' :: r => (true, r)
    | r => (false, r)
  match digitRun Char.isDigit body with
  | .hit ds rest =>
    let n : Int := digitsValue 10 ds
    .hit (if negative then -n else n) rest
  | _ => .fail

/-- Reads a float: a decimal integer part with a fraction, an exponent or both, or an infinity
or not-a-number with an optional sign. One that rounds to positive infinity fails; negative
infinity is kept. -/
def float (cs : List Char) : Scan Unit :=
  let special : Scan Unit :=
    let body := match cs with
      | '+' :: r | '-' :: r => r
      | r => r
    match body with
    | 'i' :: 'n' :: 'f' :: r | 'n' :: 'a' :: 'n' :: r => .hit () r
    | _ => .miss
  match decimal cs with
  | .fail => .fail
  | .miss => special
  | .hit (negative, whole) rest =>
    let fraction : Scan (List Char) := match rest with
      | '.' :: r =>
        match digitRun Char.isDigit r with
        | .miss => .fail
        | o => o
      | _ => .miss
    let parts : Scan (List Char × Int) := match fraction, rest with
      | .fail, _ => .fail
      | .hit frac r, _ =>
        match r with
        | 'e' :: r | 'E' :: r =>
          match exponent r with
          | .hit e r => .hit (frac, e) r
          | _ => .fail
        | _ => .hit (frac, 0) r
      | .miss, 'e' :: r | .miss, 'E' :: r =>
        match exponent r with
        | .hit e r => .hit ([], e) r
        | _ => .fail
      | .miss, _ => .miss
    match parts with
    | .hit (frac, e) r =>
      if !negative && roundsToInfinity (digitsValue 10 (whole ++ frac)) (e - frac.length) then .fail
      else .hit () r
    | .miss => special
    | .fail => .fail

/-! ### Dates and times -/

/-- Whether a year is a leap year of the Gregorian calendar. -/
def isLeapYear (y : Nat) : Bool := y % 4 == 0 && (y % 100 != 0 || y % 400 == 0)

/-- The number of days of a month of a year. -/
def daysIn (year month : Nat) : Nat :=
  if month = 2 then (if isLeapYear year then 29 else 28)
  else if month = 4 ∨ month = 6 ∨ month = 9 ∨ month = 11 then 30
  else 31

/-- Reads a date `yyyy-mm-dd`. Four digits and a dash start one; after them, a month outside
1 to 12 or a day the month does not have fails. -/
def fullDate (cs : List Char) : Scan Unit :=
  match fixedDigits 4 cs with
  | some (year, '-' :: r) =>
    match fixedDigits 2 r with
    | some (month, '-' :: r) =>
      if 1 ≤ month ∧ month ≤ 12 then
        match fixedDigits 2 r with
        | some (day, r) => if 1 ≤ day ∧ day ≤ daysIn year month then .hit () r else .fail
        | none => .fail
      else .fail
    | _ => .fail
  | _ => .miss

/-- Reads the fraction of a second, if there is one: a point and at least one digit. -/
def secondFraction (cs : List Char) : List Char :=
  match cs with
  | '.' :: c :: r => if c.isDigit then r.dropWhile Char.isDigit else cs
  | _ => cs

/-- Reads a time `hh:mm:ss` with an optional fraction. An hour of two digits up to 23 and a
colon start one; after them, a minute past 59 or a second past 60 fails. -/
def partialTime (cs : List Char) : Scan Unit :=
  match fixedDigits 2 cs with
  | some (hour, ':' :: r) =>
    if hour ≤ 23 then
      match fixedDigits 2 r with
      | some (minute, ':' :: r) =>
        if minute ≤ 59 then
          match fixedDigits 2 r with
          | some (second, r) => if second ≤ 60 then .hit () (secondFraction r) else .fail
          | none => .fail
        else .fail
      | _ => .fail
    else .miss
  | _ => .miss

/-- Reads a time offset: `Z`, or a sign with hours up to 23 and minutes up to 59. -/
def timeOffset (cs : List Char) : Scan Unit :=
  match cs with
  | 'Z' :: r | 'z' :: r => .hit () r
  | '+' :: r | '-' :: r =>
    match fixedDigits 2 r with
    | some (hour, ':' :: r) =>
      if hour ≤ 23 then
        match fixedDigits 2 r with
        | some (minute, r) => if minute ≤ 59 then .hit () r else .fail
        | none => .fail
      else .fail
    | _ => .fail
  | _ => .miss

/-- Reads a date, a date with a time and an optional offset, or a time alone. The time after
a date is parted from it by `T`, `t` or a space; what does not start a time there is left for
the line to check. -/
def dateTime (cs : List Char) : Scan Unit :=
  match fullDate cs with
  | .fail => .fail
  | .miss => partialTime cs
  | .hit () rest =>
    match rest with
    | c :: r =>
      if c = 'T' ∨ c = 't' ∨ c = ' ' then
        match partialTime r with
        | .hit () r =>
          match timeOffset r with
          | .hit () r => .hit () r
          | .miss => .hit () r
          | .fail => .fail
        | .miss => .hit () rest
        | .fail => .fail
      else .hit () rest
    | [] => .hit () []

end Toml

end GroupStats
