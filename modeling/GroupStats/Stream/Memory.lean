import GroupStats.Stream.Replay

/-!
# Streams held in memory

A `MemoryStream` is a stream held as a value, walked the way the library's in-memory stream
walks it. It moves as its `Replay` does but for one read: before it looks for a group, it reads
the current field whenever a term has been read. Once the fields have run out there is no
current field, and the read goes past the end of the fields, which stops the program.
-/

namespace GroupStats

/-- A stream held as a value, walked as the library's in-memory stream walks it. -/
structure MemoryStream where
  replay : Replay
  deriving Repr

namespace MemoryStream

/-- Holds a stream; the group bound is its largest group plus one, raised to `atLeast`. -/
def ofBlocks (blocks : Ftgs) (numStats : Nat) (atLeast : UInt32 := 0) : MemoryStream :=
  ⟨Replay.ofBlocks blocks numStats atLeast⟩

/-- Runs a step of the replay on the stream. -/
def onReplay (x : Step Replay α) : Step MemoryStream α :=
  Step.focus replay (fun _ r => ⟨r⟩) x

/-- Whether a group advance reads past the fields: a term has been read and no field is
current. -/
def readsPastFields (r : Replay) : Bool := r.termPos != 0 && r.fieldBlock?.isNone

/-- Moves to the next group of the current term, reading the current field first whenever a
term has been read. -/
def nextGroup : Step MemoryStream Bool := do
  let m ← get
  if readsPastFields m.replay then
    throw (.outOfBounds (m.replay.fieldPos - 1) m.replay.blocks.length)
  onReplay Replay.nextGroup

instance : Cursor MemoryStream where
  numStats m := Cursor.numStats m.replay
  numGroups m := Cursor.numGroups m.replay
  nextField := onReplay Cursor.nextField
  field m := Cursor.field m.replay
  nextTerm := onReplay Cursor.nextTerm
  term m := Cursor.term m.replay
  docFreq m := Cursor.docFreq m.replay
  nextGroup := nextGroup
  group m := Cursor.group m.replay
  stats m := Cursor.stats m.replay
  close := pure ()
  budget m := Cursor.budget m.replay

end MemoryStream

end GroupStats
