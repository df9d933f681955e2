import GroupStats.Merge.Source

/-!
# K-way term merge

A `TermMerge` merges several ascending term sources into one ascending stream. Each source
is either queued with its current term or pending, which means it gave the last merged term
and must advance before the next one is chosen. The next merged term is the least queued term;
every source queued with that term contributes, the document frequency is the wrapping sum of
theirs, and the contributors are listed by ascending index. A failure while advancing ends
the merge.
-/

namespace GroupStats

/-- Whether a merge runs, has run out, or was closed. -/
inductive MergeState where
  | active
  | exhausted
  | closed
  deriving DecidableEq, Repr

/-- A merge of term sources of type `σ`. -/
structure TermMerge (σ : Type) where
  sources : List σ
  /-- Sources standing on a term, with that term. -/
  queued : List (Term × Nat) := []
  /-- Sources to advance before the next term is chosen. -/
  pending : List Nat
  contributors : List Nat := []
  current : Option Term := none
  docFreq : UInt64 := 0
  state : MergeState := .active

namespace TermMerge

variable {σ : Type} [TermSource σ]

/-- A merge over sources; none of them moves before the first `next`. -/
def create (sources : List σ) : Except Error (TermMerge σ) :=
  if sources.isEmpty then .error (.invalidArgument .noTermSources)
  else .ok { sources, pending := List.range sources.length }

/-- Runs a step on the source at an index. -/
def onSource (i : Nat) (x : Step σ α) : Step (TermMerge σ) (Option α) :=
  Step.focus (·.sources) (fun m s => { m with sources := s }) (Step.onIndex i x)

/-- The source at an index. -/
def source? (m : TermMerge σ) (i : Nat) : Option σ := m.sources[i]?

/-- Ends the merge: nothing queued, pending or current. -/
def terminate (m : TermMerge σ) : TermMerge σ :=
  { m with queued := [], pending := [], contributors := [], current := none, docFreq := 0,
           state := .exhausted }

/-- Advances the sources of a list in order and queues those that reach a term. -/
def advance : List Nat → Step (TermMerge σ) Unit
  | [] => pure ()
  | i :: rest => do
    if (← onSource i TermSource.next) = some true then
      let t := ((← get).source? i).map TermSource.term
      modify fun m => { m with queued := m.queued ++ [(t.getD (.int 0), i)] }
    advance rest

/-- Whether a queue entry comes before another: by term, then by index. -/
def entryLt (a b : Term × Nat) : Bool :=
  match Term.compare a.1 b.1 with
  | .lt => true
  | .gt => false
  | .eq => a.2 < b.2

/-- The least entry of a queue. -/
def least : List (Term × Nat) → Option (Term × Nat)
  | [] => none
  | e :: es => some (es.foldl (fun m x => if entryLt x m then x else m) e)

/-- The document frequency of a source. -/
def freqOf (m : TermMerge σ) (i : Nat) : UInt64 := ((m.source? i).map TermSource.docFreq).getD 0

/-- Moves to the next merged term; `false` once every source has run out. -/
def next : Step (TermMerge σ) Bool := do
  match (← get).state with
  | .exhausted => return false
  | .closed => throw (.closed .termMerge)
  | .active => pure ()
  let toAdvance := (← get).pending
  modify fun m => { m with pending := [] }
  match ← Step.attempt (advance toAdvance) with
  | .error e =>
    modify terminate
    throw e
  | .ok () => pure ()
  let m ← get
  match least m.queued with
  | none =>
    set (terminate m)
    return false
  | some (t, _) =>
    let (hits, rest) := m.queued.partition fun e => e.1 == t
    let idx := (hits.map (·.2)).mergeSort (· ≤ ·)
    let df := idx.foldl (fun acc i => acc + m.freqOf i) 0
    set { m with queued := rest, pending := idx, contributors := idx, current := some t,
                 docFreq := df }
    return true

/-- Closes the merge and every source, reporting the first failure; closing again does
nothing. -/
def close : Step (TermMerge σ) Unit := do
  if (← get).state = .closed then return
  modify fun m => { terminate m with state := .closed }
  let n := (← get).sources.length
  let outcomes ← (List.range n).mapM fun i => Step.attempt (onSource i TermSource.close)
  match outcomes.find? (·.toBool == false) with
  | some (.error e) => throw e
  | _ => pure ()

/-- Whether every source has run out. -/
def isExhausted (m : TermMerge σ) : Bool := m.state == .exhausted

/-- The terms left with their summed frequencies, at most `fuel` of them. -/
def pairs : Nat → Step (TermMerge σ) (List (Term × UInt64))
  | 0 => pure []
  | fuel + 1 => do
    if !(← next) then return []
    let m ← get
    return (m.current.getD (.int 0), m.docFreq) :: (← pairs fuel)

/-- A merged term with its summed frequency, its contributing sources and, when read, each
contributor's documents with that source's frequency. -/
structure Merged where
  term : Term
  docFreq : UInt64
  contributors : List Nat
  docs : List (Nat × List DocId × UInt64)
  deriving DecidableEq, Repr

/-- Reads the documents left of a source's term in batches of `n`, at most `fuel` batches. -/
def readAll (n : Nat) : Nat → Step σ (List DocId)
  | 0 => pure []
  | fuel + 1 => do
    let batch ← TermSource.readDocs n
    if batch.isEmpty then return []
    return batch ++ (← readAll n fuel)

/-- The merged terms left, at most `fuel` of them. With a batch size, each contributor's
documents are read in batches of that size; a source hands out no more batches than its
frequency. -/
def drain (batch : Option Nat) : Nat → Step (TermMerge σ) (List Merged)
  | 0 => pure []
  | fuel + 1 => do
    if !(← next) then return []
    let m ← get
    let docs ← match batch with
      | none => pure []
      | some n => m.contributors.mapM fun i => do
        let ds ← onSource i (readAll n ((m.freqOf i).toNat + 1))
        pure (i, ds.getD [], m.freqOf i)
    return ⟨m.current.getD (.int 0), m.docFreq, m.contributors, docs⟩ :: (← drain batch fuel)

end TermMerge

end GroupStats
