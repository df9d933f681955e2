import GroupStats.Shard.Basic
import GroupStats.Group.Lookup
import GroupStats.Group.Totals
import GroupStats.Stream.Basic

/-!
# The stream of one shard

A `ShardStream` walks the requested fields of a shard under a fixed group assignment. On
each term it reads the term's documents in batches, drops those of group 0, and sums the stats
of the rest by group; the term's groups are then handed out ascending, each with its totals.

Outside a term the stream shows the integer term 0 with frequency 0. Positions count from
one, so that moving past the end can be told from standing before the start.
-/

namespace GroupStats

/-- The FTGS stream of one shard under a fixed group assignment. -/
structure ShardStream where
  shard : Shard
  lookup : Lookup
  columns : List StatColumn
  fields : List Field
  /-- How many documents of a term are read at a time. -/
  batch : Nat
  fieldPos : Nat := 0
  cursor : Option Postings := none
  onTerm : Bool := false
  totals : Totals := {}
  seen : SeenGroups
  groups : List GroupId := []
  groupPos : Nat := 0
  claimed : UInt64 := 0

namespace ShardStream

/-- The bytes of the per-group buffers of a stream with these bounds. -/
def memoryFor (numGroups : UInt32) (numStats : Nat) : UInt64 :=
  let g := numGroups.toUInt64
  g * (8 * numStats.toUInt64 + 4) + (g + 7) / 8

/-- A stream over fields of a shard reading documents in batches of `batch`, at least one;
`claimed` is the byte claim the stream holds. The lookup is taken to have the shard's size: the
sessions, the only callers, pass their own, so the library's refusal of another size is left out. -/
def create (shard : Shard) (lookup : Lookup) (columns : List StatColumn) (fields : List Field)
    (batch : Nat) (claimed : UInt64 := 0) : ShardStream :=
  { shard, lookup, columns, fields, batch := max batch 1, claimed,
    seen := SeenGroups.empty lookup.numGroups.toNat }

/-- Forgets the current term: its groups, their totals and the group position. -/
def resetTerm (s : ShardStream) : ShardStream :=
  { s with totals := s.totals.reset s.groups, groups := [], seen := s.seen.clear, groupPos := 0,
           onTerm := false }

/-- Sums the stats of the current term's documents by group, one batch after another. -/
def accumulate (s : ShardStream) : ShardStream :=
  match s.cursor.bind (·.current?) with
  | none => s
  | some p =>
    let (totals, seen) := (chunks s.batch p.docs).foldl (fun (totals, seen) docs =>
      let (_, totals, seen) := s.lookup.collectBatch docs s.columns totals seen
      (totals, seen)) (s.totals, s.seen)
    { s with totals, seen := seen.sort, groups := s.groups ++ seen.sorted }

/-- Moves to the next field. -/
def nextField : Step ShardStream Bool := do
  let s := (← get).resetTerm
  if s.fieldPos ≥ s.fields.length then
    set { s with cursor := none, fieldPos := s.fields.length + 1 }
    return false
  let f := s.fields.getD s.fieldPos (Field.int "")
  set { s with cursor := some (s.shard.terms f), fieldPos := s.fieldPos + 1 }
  return true

/-- Moves to the next term of the current field. -/
def nextTerm : Step ShardStream Bool := do
  let s := (← get).resetTerm
  match s.cursor with
  | none => set s; return false
  | some c =>
    let (moved, c) := Postings.next.apply c
    let s := { s with cursor := some c }
    match moved with
    | .ok true => set { s with onTerm := true }.accumulate; return true
    | _ => set s; return false

/-- Moves to the next group of the current term. -/
def nextGroup : Step ShardStream Bool := do
  let s ← get
  if s.groupPos ≥ s.groups.length then
    set { s with groupPos := s.groups.length + 1 }
    return false
  set { s with groupPos := s.groupPos + 1 }
  return true

/-- The current posting, when the stream stands on a term. -/
def posting? (s : ShardStream) : Option Posting :=
  if s.onTerm then s.cursor.bind (·.current?) else none

/-- The current group. -/
def group (s : ShardStream) : GroupId := s.groups.getD (s.groupPos - 1) 0

/-- Ends the stream. -/
def close : Step ShardStream Unit :=
  modify fun s => { s.resetTerm with fieldPos := s.fields.length + 1, cursor := none }

/-- A bound on the advances left: fields, their terms with documents, and groups. -/
def budget (s : ShardStream) : Nat :=
  s.fields.length + s.groups.length +
    (s.fields.map fun f => (s.shard.lists f).foldl (fun n (_, ds) => n + 1 + ds.length) 0).foldr
      (· + ·) 0

/-- The stream as the engine describes it. -/
def debug (s : ShardStream) : String :=
  "ShardFtgs \x7b fields: [" ++ ", ".intercalate (s.fields.map Field.debug) ++ "], field_pos: " ++
    toString s.fieldPos ++ ", num_groups: " ++ toString s.lookup.numGroups ++ ", num_stats: " ++
    toString s.columns.length ++ ", claimed: " ++ toString s.claimed ++ " \x7d"

instance : Cursor ShardStream where
  numStats s := s.columns.length
  numGroups s := s.lookup.numGroups
  nextField := nextField
  field s := s.fields.getD (s.fieldPos - 1) (Field.int "")
  nextTerm := nextTerm
  term s := ((posting? s).map (·.term)).getD (.int 0)
  docFreq s := ((posting? s).map (·.docFreq)).getD 0
  nextGroup := nextGroup
  group := group
  stats s := s.totals.row (group s) s.columns.length
  close := close
  budget := budget

end ShardStream

end GroupStats
