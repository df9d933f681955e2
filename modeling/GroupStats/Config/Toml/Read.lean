import GroupStats.Config.Toml.Scan

/-!
# Reading TOML documents

A reader for TOML 1.0 documents as settings files use them: tables and arrays of tables,
bare, quoted and dotted keys, strings of the four kinds, integers in every base, floats,
booleans, dates and times, arrays and inline tables. The value of a float or a date is not
kept, only its kind.

A document that breaks the grammar is refused as a whole. That covers an unclosed header or
string, a key without a value, and anything but a comment after a value. It also covers a key
or table defined twice, an integer outside the signed 64-bit range, a float too large to be
finite, and a date that does not exist. Arrays and inline tables may nest fewer than
`depthLimit` deep. A byte order mark at the start of the text is skipped.
-/

namespace GroupStats

namespace Toml

/-- A TOML value. Floats and dates are kept as their kind only. -/
inductive Value where
  | str (s : String)
  | int (i : Int)
  | float
  | bool (b : Bool)
  | datetime
  | array (items : List Value)
  /-- A table; `dotted` marks one a dotted key made inside an inline table. -/
  | table (dotted : Bool) (entries : List (String × Value))
  deriving Repr, Inhabited

/-- A table: keys in the order they were defined, each with its value. -/
abbrev Table := List (String × Value)

/-! ### Values -/

/-- Reads a bare value that starts with a sign or a digit: a date or time, else a float, else
an integer. -/
def bare (cs : List Char) : Option (Value × List Char) :=
  match dateTime cs with
  | .hit () r => some (.datetime, r)
  | .fail => none
  | .miss =>
    match float cs with
    | .hit () r => some (.float, r)
    | .fail => none
    | .miss =>
      match integer cs with
      | .hit i r => some (.int i, r)
      | _ => none

/-- Puts a pair into an inline table. The dotted part of its key descends through tables,
making dotted ones on the way; every table it passes through must be one a dotted key made,
and the last part must be new. -/
def inlineSet : List String → String → Value → Table → Option Table
  | [], k, v, t => if t.any (·.1 == k) then none else some (t ++ [(k, v)])
  | p :: ps, k, v, t =>
    match t.find? (·.1 == p) with
    | none => do
      let sub ← inlineSet ps k v []
      pure (t ++ [(p, .table true sub)])
    | some (_, .table true sub) => do
      let sub ← inlineSet ps k v sub
      pure (t.map fun (q, old) => if q == p then (q, .table true sub) else (q, old))
    | some _ => none

mutual

/-- Reads a value inside `depth` arrays and inline tables. -/
def value (depth : Nat) : Nat → List Char → Option (Value × List Char)
  | 0, _ => none
  | fuel + 1, cs =>
    match cs with
    | '"' :: _ | '\'' :: _ => (string cs).map fun (s, r) => (.str s, r)
    | '[' :: r => if depth + 1 < depthLimit then array (depth + 1) fuel r [] else none
    | '{' :: r => if depth + 1 < depthLimit then inlineTable (depth + 1) fuel r else none
    | 't' :: 'r' :: 'u' :: 'e' :: r => some (.bool true, r)
    | 'f' :: 'a' :: 'l' :: 's' :: 'e' :: r => some (.bool false, r)
    | 'i' :: 'n' :: 'f' :: r | 'n' :: 'a' :: 'n' :: r => some (.float, r)
    | c :: _ => if c = '+' ∨ c = '-' ∨ c.isDigit then bare cs else none
    | [] => none

/-- Reads the items of an array after its opening bracket or a comma; blanks and comments may
stand around each item, and a comma may follow the last one. -/
def array (depth : Nat) : Nat → List Char → List Value → Option (Value × List Char)
  | 0, _, _ => none
  | fuel + 1, cs, acc => do
    match ← skipBlank (cs.length + 1) cs with
    | ']' :: r => some (.array acc, r)
    | r => do
      let (v, r) ← value depth fuel r
      match ← skipBlank (r.length + 1) r with
      | ',' :: r => array depth fuel r (acc ++ [v])
      | ']' :: r => some (.array (acc ++ [v]), r)
      | _ => none

/-- Reads the pairs of an inline table after its opening brace. -/
def inlineTable (depth : Nat) (fuel : Nat) (cs : List Char) : Option (Value × List Char) :=
  match skipSpaces cs with
  | '}' :: r => some (.table false [], r)
  | r => inlinePairs depth fuel r []

/-- Reads the pairs of an inline table, at least one; a comma must be followed by another. -/
def inlinePairs (depth : Nat) : Nat → List Char → Table → Option (Value × List Char)
  | 0, _, _ => none
  | fuel + 1, cs, acc => do
    let (k, r) ← key cs
    let r ← match r with
      | '=' :: r => some (skipSpaces r)
      | _ => none
    let (v, r) ← value depth fuel r
    let last ← k.getLast?
    let acc ← inlineSet k.dropLast last v acc
    match skipSpaces r with
    | ',' :: r => inlinePairs depth fuel r acc
    | '}' :: r => some (.table false acc, r)
    | _ => none

end

/-! ### Documents -/

/-- How a table of a document came to be: named by a header, made on the way to a header's
table, or made by a dotted key. -/
inductive Origin where
  | header
  | implicit
  | dotted
  deriving DecidableEq, Repr

/-- An entry of a document being read. Values, inline tables and arrays among them, are
final; a table and an array of tables stay open to later headers and keys. -/
inductive Node where
  | value (v : Value)
  | table (origin : Origin) (entries : List (String × Node))
  | tables (items : List (List (String × Node)))

/-- The entries of a table of a document. -/
abbrev Entries := List (String × Node)

mutual

/-- The value of an entry once the document is read. -/
def Node.freeze : Node → Value
  | .value v => v
  | .table _ es => .table false (freezeAll es)
  | .tables items => .array (freezeItems items)

/-- The values of the entries of a table. -/
def freezeAll : Entries → Table
  | [] => []
  | (k, n) :: rest => (k, n.freeze) :: freezeAll rest

/-- The values of the tables of an array of tables. -/
def freezeItems : List Entries → List Value
  | [] => []
  | es :: rest => .table false (freezeAll es) :: freezeItems rest

end

/-- Replaces the entry of a key. -/
def Entries.put (es : Entries) (k : String) (n : Node) : Entries :=
  es.map fun (q, old) => if q == k then (q, n) else (q, old)

/-- Runs a change on the table at a path below a table and puts the path back together, making
missing tables on the way (dotted ones for a dotted key, implicit ones otherwise) and entering an
array of tables at its last table. A dotted key may not enter a table a header named, no path goes
through a value, and the change learns the origin of the table it lands in. -/
def descend (dotted : Bool) (f : Option Origin → Entries → Option (Entries × α)) :
    List String → Option Origin → Entries → Option (Entries × α)
  | [], o, es => f o es
  | p :: ps, _, es =>
    match es.find? (·.1 == p) with
    | none => do
      let o := if dotted then Origin.dotted else .implicit
      let (sub, a) ← descend dotted f ps (some o) []
      pure (es ++ [(p, .table o sub)], a)
    | some (_, .table o sub) =>
      if dotted ∧ o = .header then none
      else do
        let (sub, a) ← descend dotted f ps (some o) sub
        pure (es.put p (.table o sub), a)
    | some (_, .tables items) => do
      let last ← items.getLast?
      let (sub, a) ← descend dotted f ps none last
      pure (es.put p (.tables (items.dropLast ++ [sub])), a)
    | some (_, .value _) => none

/-- The state of a document being read: the tables finished so far, and the table under the
last header, kept apart from them until the next header, with its path. -/
structure Reading where
  root : Entries := []
  current : Entries := []
  path : List String := []
  isArray : Bool := false

/-- Sets a key of the current table: the dotted part of the key descends into tables, and a
key of several parts must land in a table that dotted keys made. -/
def Reading.assign (st : Reading) (k : List String) (v : Value) : Option Reading := do
  let last ← k.getLast?
  let path := k.dropLast
  let (current, _) ← descend true (fun o es =>
      if path.isEmpty ∨ o = some .dotted then
        if es.any (·.1 == last) then none else some (es ++ [(last, .value v)], ())
      else none) path none st.current
  pure { st with current }

/-- Puts the current table into the document: the root table when no header came yet, the
next table of an array of tables, or the table a header named. -/
def Reading.finish (st : Reading) : Option Entries :=
  match st.path.getLast? with
  | none => some st.current
  | some name =>
    let parent := st.path.dropLast
    (·.1) <$> descend false (fun _ es =>
      match es.find? (·.1 == name), st.isArray with
      | none, true => some (es ++ [(name, .tables [st.current])], ())
      | some (_, .tables items), true => some (es.put name (.tables (items ++ [st.current])), ())
      | none, false => some (es ++ [(name, .table .header st.current)], ())
      | _, _ => none) parent none st.root

/-- Opens the table a header names. A table only made on the way to another header's table is
taken up with what it holds; a name already in use any other way fails. -/
def Reading.open (root : Entries) (path : List String) (many : Bool) : Option Reading := do
  let name ← path.getLast?
  let parent := path.dropLast
  if many then
    let (root, _) ← descend false (fun _ es =>
        match es.find? (·.1 == name) with
        | none => some (es ++ [(name, .tables [])], ())
        | some (_, .tables _) => some (es, ())
        | some _ => none) parent none root
    pure { root, path, isArray := true }
  else
    let (root, current) ← descend false (fun _ es =>
        match es.find? (·.1 == name) with
        | none => some (es, [])
        | some (_, .table .implicit sub) => some (es.filter (·.1 != name), sub)
        | some _ => none) parent none root
    pure { root, current, path }

/-- Reads a header after its opening bracket; `many` marks an array of tables. -/
def header (many : Bool) (cs : List Char) (st : Reading) : Option (Reading × List Char) := do
  let (path, r) ← key cs
  let r ← match r, many with
    | ']' :: ']' :: r, true => some r
    | ']' :: r, false => some r
    | _, _ => none
  let r ← endLine r
  let root ← st.finish
  let st ← Reading.open root path many
  pure (st, r)

/-- Reads the lines of a document, at most `fuel` of them. -/
def lines : Nat → List Char → Reading → Option Entries
  | 0, _, _ => none
  | fuel + 1, cs, st =>
    match skipSpaces cs with
    | [] => st.finish
    | '#' :: r => do lines fuel (← endLine ('#' :: r)) st
    | '\n' :: r => lines fuel r st
    | '\r' :: r => do lines fuel (← newline? ('\r' :: r)) st
    | '[' :: '[' :: r => do
      let (st, r) ← header true r st
      lines fuel r st
    | '[' :: r => do
      let (st, r) ← header false r st
      lines fuel r st
    | r => do
      let (k, r) ← key r
      let r ← match r with
        | '=' :: r => some (skipSpaces r)
        | _ => none
      let (v, r) ← value 0 (r.length + 1) r
      let r ← endLine r
      let st ← st.assign k v
      lines fuel r st

/-- Reads a document; `none` when it is not TOML. -/
def parse (text : String) : Option Table :=
  let cs := match text.toList with
    | '\uFEFF' :: r => r
    | cs => cs
  freezeAll <$> lines (cs.length + 2) cs {}

end Toml

end GroupStats
