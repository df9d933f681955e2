import GroupStats.Stream.Basic

/-!
# Walking a cursor

A move on a cursor is answered by what the cursor shows after it: the new field, term or
group when the advance succeeds, the rest of the stream for `collect`, and the current term
for `peek`.
-/

namespace GroupStats

namespace Cursor

/-- A move on a cursor. -/
inductive Move where
  | nextField
  | nextTerm
  | nextGroup
  | close
  | collect
  | peek
  deriving DecidableEq, Repr

/-- What a move shows. -/
inductive Reply where
  /-- The new field, or `none` at the end of the stream. -/
  | field (f : Option Field)
  /-- The new term with its document frequency, or `none` at the end of the field. -/
  | term (t : Option (Term × UInt64))
  /-- The new group, or `none` at the end of the term. -/
  | group (g : Option GroupRow)
  | closed
  | stream (s : Ftgs)
  | peek (t : Term) (docFreq : UInt64)
  deriving Repr

variable {σ : Type} [Cursor σ]

/-- Makes one move. -/
def move : Move → Step σ Reply
  | .nextField => do
    if ← nextField then return .field (some (field (← get))) else return .field none
  | .nextTerm => do
    if ← nextTerm then
      let s ← get
      return .term (some (term s, docFreq s))
    else return .term none
  | .nextGroup => do
    if ← nextGroup then
      let s ← get
      return .group (some ⟨group s, stats s⟩)
    else return .group none
  | .close => do close; return .closed
  | .collect => .stream <$> collect
  | .peek => do
    let s ← get
    return .peek (term s) (docFreq s)

end Cursor

end GroupStats
