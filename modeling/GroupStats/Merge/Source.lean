import GroupStats.Step

/-!
# Term sources

A term source walks the ascending terms of one field of one shard. Standing on a term it
gives the term's document frequency and hands out the documents holding it in batches; moving
to the next term starts the documents over. `Postings` is a term source held in memory, built
from terms with frequencies or with document lists and sorted by term, keeping the given order
of equal terms.
-/

namespace GroupStats

/-- A cursor over the ascending terms of one field. -/
class TermSource (σ : Type) where
  next : Step σ Bool
  term : σ → Term
  docFreq : σ → UInt64
  /-- Hands out at most `n` more documents of the current term; none once they are out. -/
  readDocs (n : Nat) : Step σ (List DocId)
  close : Step σ Unit

/-- One term of a postings source. -/
structure Posting where
  term : Term
  docFreq : UInt64
  docs : List DocId
  deriving DecidableEq, Repr

/-- A term source in memory. Positions count from one; zero stands before the first term. -/
structure Postings where
  entries : List Posting
  position : Nat := 0
  docCursor : Nat := 0
  deriving DecidableEq, Repr

namespace Postings

/-- Sorts postings by term, keeping the given order of equal terms. -/
def sortByTerm (ps : List Posting) : List Posting :=
  ps.mergeSort fun a b => Term.le a.term b.term

/-- A source of terms with frequencies and no document lists. -/
def ofFreqs (pairs : List (Term × UInt64)) : Postings :=
  { entries := sortByTerm (pairs.map fun (t, df) => ⟨t, df, []⟩) }

/-- A source of terms with document lists; a term's frequency is the length of its list. -/
def ofLists (pairs : List (Term × List DocId)) : Postings :=
  { entries := sortByTerm (pairs.map fun (t, docs) => ⟨t, docs.length.toUInt64, docs⟩) }

/-- The current posting, if the source stands on one. -/
def current? (p : Postings) : Option Posting :=
  if p.position = 0 then none else p.entries[p.position - 1]?

/-- The number of terms of the source. -/
def size (p : Postings) : Nat := p.entries.length

/-- Moves to the next term. -/
def next : Step Postings Bool := do
  let p ← get
  if p.position ≥ p.entries.length then
    set { p with position := p.entries.length + 1 }
    return false
  set { p with position := p.position + 1, docCursor := 0 }
  return true

/-- Hands out the next documents of the current term. -/
def readDocs (n : Nat) : Step Postings (List DocId) := do
  let p ← get
  match p.current? with
  | none => return []
  | some e =>
    let batch := (e.docs.drop p.docCursor).take n
    set { p with docCursor := p.docCursor + batch.length }
    return batch

/-- Hands out the rest of the current term's documents in batches of `n`, at most `fuel`
batches. -/
def batchesUpTo (n : Nat) : Nat → Step Postings (List (List DocId))
  | 0 => pure []
  | fuel + 1 => do
    let batch ← readDocs n
    if batch.isEmpty then return []
    return batch :: (← batchesUpTo n fuel)

/-- Hands out the rest of the current term's documents in batches of `n`. -/
def batches (n : Nat) : Step Postings (List (List DocId)) := do
  let p ← get
  batchesUpTo n ((p.current?.map (·.docs.length)).getD 0 + 1)

/-- Reads the terms left, at most `fuel` of them, each with its documents in batches of `n`. -/
def scanUpTo (n : Nat) : Nat → Step Postings (List (Posting × List (List DocId)))
  | 0 => pure []
  | fuel + 1 => do
    if !(← next) then return []
    let p := ((← get).current?).getD ⟨.int 0, 0, []⟩
    let bs ← batches n
    return (p, bs) :: (← scanUpTo n fuel)

/-- Reads every term left, each with its documents in batches of `n`. -/
def scan (n : Nat) : Step Postings (List (Posting × List (List DocId))) := do
  scanUpTo n ((← get).size + 1)

instance : TermSource Postings where
  next := next
  term p := (p.current?.map (·.term)).getD (.int 0)
  docFreq p := (p.current?.map (·.docFreq)).getD 0
  readDocs := readDocs
  close := pure ()

end Postings

end GroupStats
