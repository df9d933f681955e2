import GroupStats.Stream.Memory
import GroupStats.Wire.Reader

/-!
# Stream sources

A stream comes either from a value held in memory or from bytes in the wire format. A
`Source` is either, and walks as the one it holds.
-/

namespace GroupStats

/-- A stream held in memory or decoded from bytes. -/
inductive Source where
  | memory (m : MemoryStream)
  | wire (r : Wire.Reader)

namespace Source

/-- Runs a step on whichever stream the source holds. -/
def onEither (x : Step MemoryStream α) (other : Step Wire.Reader α) : Step Source α :=
  Step.ofFn fun
    | .memory m => let (o, m') := x.apply m; (o, .memory m')
    | .wire r => let (o, r') := other.apply r; (o, .wire r')

/-- Reads a view of whichever stream the source holds. -/
def view (f : MemoryStream → α) (g : Wire.Reader → α) : Source → α
  | .memory m => f m
  | .wire r => g r

instance : Cursor Source where
  numStats := view Cursor.numStats Cursor.numStats
  numGroups := view Cursor.numGroups Cursor.numGroups
  nextField := onEither Cursor.nextField Cursor.nextField
  field := view Cursor.field Cursor.field
  nextTerm := onEither Cursor.nextTerm Cursor.nextTerm
  term := view Cursor.term Cursor.term
  docFreq := view Cursor.docFreq Cursor.docFreq
  nextGroup := onEither Cursor.nextGroup Cursor.nextGroup
  group := view Cursor.group Cursor.group
  stats := view Cursor.stats Cursor.stats
  close := onEither Cursor.close Cursor.close
  budget := view Cursor.budget Cursor.budget

end Source

end GroupStats
