import GroupStats.Stream.Basic

/-!
# Replayed streams

A `Replay` walks a stream held as a value. Its positions count from one, zero standing
before the first element; a level that has run out stays one past its end. The group bound
it announces is one more than the largest group of the stream, wrapping at 32 bits, raised to
a given bound.

A replay is the reference walk: it never fails, and a group advance with no current term
answers that there is none. The library's own in-memory stream walks the same way but stops
on a group advance once the fields have run out after a term was read (`MemoryStream`).
-/

namespace GroupStats

/-- A cursor over a stream held as a value. -/
structure Replay where
  blocks : Ftgs
  numStats : Nat
  numGroups : UInt32
  fieldPos : Nat := 0
  termPos : Nat := 0
  groupPos : Nat := 0
  deriving Repr

namespace Replay

/-- Replays a stream; the group bound is the largest group plus one, raised to `atLeast`. -/
def ofBlocks (blocks : Ftgs) (numStats : Nat) (atLeast : UInt32 := 0) : Replay :=
  let derived := blocks.maxGroup + 1
  { blocks, numStats, numGroups := if derived < atLeast then atLeast else derived }

/-- The current field block, if the cursor stands on one. -/
def fieldBlock? (r : Replay) : Option FieldBlock :=
  if r.fieldPos = 0 then none else r.blocks[r.fieldPos - 1]?

/-- The current term block, if the cursor stands on one. -/
def termBlock? (r : Replay) : Option TermBlock := do
  let f ← r.fieldBlock?
  if r.termPos = 0 then none else f.terms[r.termPos - 1]?

/-- The current group row, if the cursor stands on one. -/
def groupRow? (r : Replay) : Option GroupRow := do
  let t ← r.termBlock?
  if r.groupPos = 0 then none else t.groups[r.groupPos - 1]?

/-- Moves to the next field. -/
def nextField : Step Replay Bool := do
  let r ← get
  if r.fieldPos ≥ r.blocks.length then
    set { r with fieldPos := r.blocks.length + 1 }
    return false
  set { r with fieldPos := r.fieldPos + 1, termPos := 0, groupPos := 0 }
  return true

/-- Moves to the next term of the current field. -/
def nextTerm : Step Replay Bool := do
  let r ← get
  match r.fieldBlock? with
  | none => return false
  | some f =>
    if r.termPos ≥ f.terms.length then
      set { r with termPos := f.terms.length + 1 }
      return false
    set { r with termPos := r.termPos + 1, groupPos := 0 }
    return true

/-- Moves to the next group of the current term. -/
def nextGroup : Step Replay Bool := do
  let r ← get
  match r.termBlock? with
  | none => return false
  | some t =>
    if r.groupPos ≥ t.groups.length then
      set { r with groupPos := t.groups.length + 1 }
      return false
    set { r with groupPos := r.groupPos + 1 }
    return true

instance : Cursor Replay where
  numStats r := r.numStats
  numGroups r := r.numGroups
  nextField := nextField
  field r := (r.fieldBlock?.map (·.field)).getD default
  nextTerm := nextTerm
  term r := (r.termBlock?.map (·.term)).getD (.int 0)
  docFreq r := (r.termBlock?.map (·.docFreq)).getD 0
  nextGroup := nextGroup
  group r := (r.groupRow?.map (·.group)).getD 0
  stats r := (r.groupRow?.map (·.stats)).getD []
  close := pure ()
  budget r := r.blocks.size

end Replay

end GroupStats
