import GroupStats.Step

/-!
# FTGS streams

An FTGS stream nests four levels: fields; within a field its terms, ascending; within a term
the groups of the documents holding it, ascending and never group 0; within a group one
value per pushed stat. `Ftgs` is a stream written out as a value. A `Cursor` walks a stream
level by level; advancing an outer level skips what is left of the inner ones. `collect`
reads a cursor back into a value.
-/

namespace GroupStats

/-- One group of a term with its stats. -/
structure GroupRow where
  group : GroupId
  stats : List Int64
  deriving DecidableEq, Repr, Inhabited

/-- One term of a field with its document frequency and groups. -/
structure TermBlock where
  term : Term
  docFreq : UInt64
  groups : List GroupRow
  deriving DecidableEq, Repr, Inhabited

/-- One field of a stream with its terms. -/
structure FieldBlock where
  field : Field
  terms : List TermBlock
  deriving DecidableEq, Repr, Inhabited

/-- A stream written out as a value. -/
abbrev Ftgs := List FieldBlock

namespace Ftgs

/-- The number of fields, terms and groups of a stream. -/
def size (s : Ftgs) : Nat :=
  s.foldr (fun f n => 1 + f.terms.foldr (fun t m => 1 + t.groups.length + m) 0 + n) 0

/-- The largest group id of a stream, or 0 when it has none. -/
def maxGroup (s : Ftgs) : GroupId :=
  s.foldl (fun acc f => f.terms.foldl (fun acc t => t.groups.foldl
    (fun acc g => if acc < g.group then g.group else acc) acc) acc) 0

end Ftgs

/-- A cursor over an FTGS stream. `budget` bounds the number of advances that can still
succeed, which makes every full read of a cursor finite. -/
class Cursor (σ : Type) where
  numStats : σ → Nat
  numGroups : σ → UInt32
  nextField : Step σ Bool
  field : σ → Field
  nextTerm : Step σ Bool
  term : σ → Term
  docFreq : σ → UInt64
  nextGroup : Step σ Bool
  group : σ → GroupId
  stats : σ → List Int64
  close : Step σ Unit
  budget : σ → Nat

namespace Cursor

variable {σ : Type} [Cursor σ]

/-- Reads the groups left in the current term, at most `fuel` of them. -/
def collectGroups : Nat → Step σ (List GroupRow)
  | 0 => pure []
  | fuel + 1 => do
    if ← nextGroup then
      let s ← get
      let row : GroupRow := ⟨group s, stats s⟩
      return row :: (← collectGroups fuel)
    else return []

/-- Reads the terms left in the current field, at most `fuel` of them and `fuel` groups
for each. -/
def collectTerms (fuel : Nat) : Nat → Step σ (List TermBlock)
  | 0 => pure []
  | n + 1 => do
    if ← nextTerm then
      let s ← get
      let groups ← collectGroups fuel
      let block : TermBlock := ⟨term s, docFreq s, groups⟩
      return block :: (← collectTerms fuel n)
    else return []

/-- Reads the fields left in the stream, at most `fuel` of each level. -/
def collectFields (fuel : Nat) : Nat → Step σ Ftgs
  | 0 => pure []
  | n + 1 => do
    if ← nextField then
      let terms ← collectTerms fuel fuel
      let s ← get
      let block : FieldBlock := ⟨field s, terms⟩
      return block :: (← collectFields fuel n)
    else return []

/-- Reads what is left of a stream into a value. -/
def collect : Step σ Ftgs := do
  let fuel := budget (← get) + 1
  collectFields fuel fuel

end Cursor

end GroupStats
