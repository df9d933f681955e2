import GroupStats.Wire.Record

/-!
# Stream reader

A `Reader` decodes the wire format and walks it as a `Cursor`. It reads one record ahead: a
field or term record that ends the groups of a term is decoded into a staging slot and held
as pending, and the current field and term change only when the caller advances that level.

A record that is cut short consumes the rest of the input; any other fault leaves the input
just past the bytes read so far, so later reads go on from there.
-/

namespace GroupStats

namespace Wire

/-- Takes `n` bytes of the input; a shorter input is consumed whole and the record is cut. -/
def take (n : Nat) : Step Bytes Bytes := do
  let rest ← get
  if n ≤ rest.length then
    set (rest.drop n)
    return rest.take n
  set ([] : Bytes)
  throw (.corrupt .truncated)

/-- Takes one byte. -/
def takeByte : Step Bytes UInt8 := do
  match ← take 1 with
  | [b] => return b
  | _ => throw (.corrupt .truncated)

/-- Takes a length word and checks it against the limit. -/
def takeLength : Step Bytes Nat := do
  let n := (Bytes.toUInt32 (← take 4)).toNat
  if n > maxLength then throw (.corrupt (.tooLong n))
  return n

/-- Takes `n` stats of eight bytes each. -/
def takeStats : Nat → Step Bytes (List Int64)
  | 0 => pure []
  | n + 1 => do
    let v := (Bytes.toUInt64 (← take 8)).toInt64
    return v :: (← takeStats n)

/-- Reads one record, or `none` at the end of the input. A term record must match the type
of the latest field record, `current`; a group must stay below `numGroups`. -/
def readRecord (current : Field) (numStats : Nat) (numGroups : UInt32) :
    Step Bytes (Option Record) := do
  match ← get with
  | [] => return none
  | tag :: rest =>
    set rest
    if tag = fieldTag then
      let flag ← takeByte
      let some type := FieldType.ofFlag? flag | throw (.corrupt (.unknownFlag flag))
      let n ← takeLength
      let name ← take n
      match Utf8.decode name with
      | .ok s => return some (.field ⟨s, type⟩)
      | .error failure => throw (.corrupt (.badName failure))
    else if tag = intTermTag then
      if current.type ≠ .int then throw (.corrupt (.misplacedTerm .int current))
      let t := (Bytes.toUInt64 (← take 8)).toInt64
      let df := Bytes.toUInt64 (← take 8)
      return some (.intTerm t df)
    else if tag = bytesTermTag then
      if current.type ≠ .string then throw (.corrupt (.misplacedTerm .string current))
      let n ← takeLength
      let b ← take n
      let df := Bytes.toUInt64 (← take 8)
      return some (.bytesTerm b df)
    else if tag = groupTag then
      let g := Bytes.toUInt32 (← take 4)
      if g ≥ numGroups then throw (.corrupt (.groupRange g numGroups))
      let stats ← takeStats numStats
      return some (.group g stats)
    else throw (.corrupt (.unknownTag tag))

/-- What the reader holds back for the caller's next advance. -/
inductive Pending where
  | none
  | field
  | term
  | eof
  deriving DecidableEq, Repr

/-- The name of a pending kind in debug descriptions. -/
def Pending.debugName : Pending → String
  | .none => "None"
  | .field => "Field"
  | .term => "Term"
  | .eof => "Eof"

/-- Where a reader takes its bytes from. -/
inductive Input where
  /-- Bytes in memory or in a file, with the position at the front. -/
  | bytes (rest : Bytes)
  /-- A source every read of which fails. -/
  | failing (fault : IoFault)
  deriving Repr

/-- The state of a stream reader. -/
structure Reader where
  input : Input
  numStats : Nat
  numGroups : UInt32
  field : Field := Field.int ""
  intTerm : Int64 := 0
  bytesTerm : Bytes := []
  docFreq : UInt64 := 0
  group : GroupId := 0
  stats : List Int64
  /-- The latest field record, committed when the caller moves to the next field. -/
  stagedField : Field := Field.int ""
  stagedInt : Int64 := 0
  stagedBytes : Bytes := []
  stagedDocFreq : UInt64 := 0
  pending : Pending := .none
  deriving Repr

namespace Reader

/-- A reader of an input, for groups of `numStats` stats below `numGroups`. -/
def create (input : Input) (numStats : Nat) (numGroups : UInt32) : Reader :=
  { input, numStats, numGroups, stats := List.replicate numStats 0 }

/-- A reader of bytes in memory. -/
def ofBytes (data : Bytes) (numStats : Nat) (numGroups : UInt32) : Reader :=
  create (.bytes data) numStats numGroups

/-- The number of bytes not yet read. -/
def remaining (r : Reader) : Nat :=
  match r.input with
  | .bytes rest => rest.length
  | .failing _ => 0

/-- Reads the next record and stages what it carries; tells which kind it was. -/
def readNext : Step Reader Pending := do
  let r ← get
  match r.input with
  | .failing fault => throw (.io fault)
  | .bytes rest =>
    let (outcome, rest') := (readRecord r.stagedField r.numStats r.numGroups).apply rest
    set { r with input := .bytes rest' }
    match outcome with
    | .error e => throw e
    | .ok none => return .eof
    | .ok (some (.field f)) =>
      modify fun r => { r with stagedField := f }
      return .field
    | .ok (some (.intTerm t df)) =>
      modify fun r => { r with stagedInt := t, stagedDocFreq := df }
      return .term
    | .ok (some (.bytesTerm b df)) =>
      modify fun r => { r with stagedBytes := b, stagedDocFreq := df }
      return .term
    | .ok (some (.group g stats)) =>
      modify fun r => { r with group := g, stats }
      return .none

/-- Takes the pending kind, or reads the next record when nothing is pending. -/
def takePending : Step Reader Pending := do
  let r ← get
  match r.pending with
  | .none => readNext
  | held =>
    set { r with pending := .none }
    return held

/-- Holds a kind back for the next advance. -/
def hold (p : Pending) : Step Reader Unit := modify fun r => { r with pending := p }

/-- Moves to the next field record, skipping terms and groups; at most `fuel` records. -/
def seekField : Nat → Step Reader Bool
  | 0 => pure false
  | fuel + 1 => do
    match ← takePending with
    | .field =>
      modify fun r => { r with field := r.stagedField }
      return true
    | .eof =>
      hold .eof
      return false
    | _ => seekField fuel

/-- Moves to the next term record of the current field, skipping groups. -/
def seekTerm : Nat → Step Reader Bool
  | 0 => pure false
  | fuel + 1 => do
    match ← takePending with
    | .term =>
      modify fun r =>
        { r with intTerm := r.stagedInt, bytesTerm := r.stagedBytes, docFreq := r.stagedDocFreq }
      return true
    | .none => seekTerm fuel
    | held =>
      hold held
      return false

/-- Moves to the next field. -/
def nextField : Step Reader Bool := do seekField ((← get).remaining + 2)

/-- Moves to the next term of the current field. -/
def nextTerm : Step Reader Bool := do seekTerm ((← get).remaining + 2)

/-- Moves to the next group of the current term. -/
def nextGroup : Step Reader Bool := do
  match ← takePending with
  | .none => return true
  | held =>
    hold held
    return false

/-- The current term, read by the type of the current field. -/
def term (r : Reader) : Term :=
  match r.field.type with
  | .int => .int r.intTerm
  | .string => .bytes r.bytesTerm

/-- The debug description of a reader. -/
def debug (r : Reader) : String :=
  "FtgsReader \x7b num_stats: " ++ toString r.numStats ++ ", num_groups: " ++
    toString r.numGroups ++ ", field: " ++ r.field.debug ++ ", pending: " ++
    r.pending.debugName ++ " \x7d"

instance : Cursor Reader where
  numStats r := r.numStats
  numGroups r := r.numGroups
  nextField := nextField
  field r := r.field
  nextTerm := nextTerm
  term := term
  docFreq r := r.docFreq
  nextGroup := nextGroup
  group r := r.group
  stats r := r.stats
  close := pure ()
  budget r := r.remaining + 1

end Reader

end Wire

end GroupStats
