import GroupStats.Merge.Terms
import GroupStats.Stream.Basic
import GroupStats.Group.Bits
import GroupStats.Group.Totals

/-!
# Stream merge

A `Merger` sums several streams that visit the same fields in the same order, such as the
same split read back from every shard. Within a field the terms are merged by a `TermMerge`;
the groups every contributor sends for a term are summed into per-group rows of totals and
given out in ascending group order. Moving to another term clears the rows of the groups the
term listed, and only those.
-/

namespace GroupStats

/-- One input of a stream merge, with the term it reached last. -/
structure Lane (τ : Type) where
  inner : τ
  term : Term := .int 0

namespace Lane

variable {τ : Type} [Cursor τ]

/-- Runs a step of the input cursor. -/
def onInner (x : Step τ α) : Step (Lane τ) α :=
  Step.focus Lane.inner (fun l s => { l with inner := s }) x

instance : TermSource (Lane τ) where
  next := do
    let moved ← onInner Cursor.nextTerm
    if moved then modify fun l => { l with term := Cursor.term l.inner }
    return moved
  term l := l.term
  docFreq l := Cursor.docFreq l.inner
  readDocs _ := pure []
  close := onInner Cursor.close

end Lane

/-- Where a stream merge stands: between fields with its inputs, or merging a field. -/
inductive Stage (τ : Type) where
  | idle (lanes : List (Lane τ))
  | merging (merge : TermMerge (Lane τ))
  | empty

/-- The state of a stream merge over inputs of type `τ`. -/
structure Merger (τ : Type) where
  stage : Stage τ
  field : Field := Field.int ""
  numStats : Nat
  numGroups : UInt32
  totals : Totals := {}
  seen : SeenGroups
  /-- The groups of the current term, ascending. -/
  groups : List GroupId := []
  /-- The position in `groups`, counted from one. -/
  groupPos : Nat := 0
  closed : Bool := false
  /-- Bytes claimed for the totals when the merge is accounted. -/
  claimed : UInt64 := 0

namespace Merger

variable {τ : Type} [Cursor τ]

/-- The bytes of totals and marks for `numGroups` groups of `numStats` stats. -/
def memoryFor (numGroups : UInt32) (numStats : Nat) : UInt64 :=
  let g := (if numGroups < 1 then 1 else numGroups).toUInt64
  g * (8 * numStats.toUInt64 + 4) + (g + 7) / 8

/-- A merge of inputs that agree on their stat count; its group bound is the largest of
theirs, and at least one. -/
def create (inputs : List τ) : Except Error (Merger τ) :=
  match inputs with
  | [] => .error (.invalidArgument .noMergeInputs)
  | first :: _ =>
    let n := Cursor.numStats first
    match inputs.find? (Cursor.numStats · != n) with
    | some bad => .error (.invalidArgument (.statCountsDiffer n (Cursor.numStats bad)))
    | none =>
      let g := inputs.foldl (fun m i => if m < Cursor.numGroups i then Cursor.numGroups i else m) 1
      .ok { stage := .idle (inputs.map fun i => { inner := i }), numStats := n, numGroups := g,
            seen := SeenGroups.empty g.toNat }

/-- Clears what the current term left: the rows of its groups, the seen groups and the
group position. -/
def resetTerm (m : Merger τ) : Merger τ :=
  { m with totals := m.totals.reset m.groups, groups := [], seen := m.seen.clear, groupPos := 0 }

/-- The inputs, wherever the stage holds them. -/
def lanes (m : Merger τ) : List (Lane τ) :=
  match m.stage with
  | .idle lanes => lanes
  | .merging merge => merge.sources
  | .empty => []

/-- Runs a step of the term merge, when a field is being merged. -/
def onMerge (x : Step (TermMerge (Lane τ)) α) : Step (Merger τ) (Option α) :=
  Step.ofFn fun mg =>
    match mg.stage with
    | .merging merge =>
      let (r, merge') := x.apply merge
      (r.map some, { mg with stage := .merging merge' })
    | _ => (.ok none, mg)

/-- Runs a step of the input at an index, while a field is being merged. -/
def onLane (i : Nat) (x : Step τ α) : Step (Merger τ) (Option α) := do
  let r ← onMerge (TermMerge.onSource i (Lane.onInner x))
  return r.join

/-- The input cursor at an index. -/
def lane? (m : Merger τ) (i : Nat) : Option τ := (m.lanes[i]?).map (·.inner)

/-- Checks the outcomes of moving every input to its next field: the first failure in input
order wins, then a field that differs from the first input's, then inputs that ended while
others did not. Gives the common field, or `none` when all ended. -/
def agree (lanes : List (Lane τ)) (outcomes : List (Except Error Bool)) :
    Except Error (Option Field) :=
  let step := fun (acc : Option Field × Nat × Option Error × Nat) (p : Lane τ × Except Error Bool) =>
    let (f, ended, failure, i) := acc
    match p.2 with
    | .ok true =>
      let here := Cursor.field p.1.inner
      match f with
      | none => (some here, ended, failure, i + 1)
      | some f =>
        if f = here then (some f, ended, failure, i + 1)
        else (some f, ended, failure <|> some (.corrupt (.fieldMismatch i here f)), i + 1)
    | .ok false => (f, ended + 1, failure, i + 1)
    | .error e => (f, ended, failure <|> some e, i + 1)
  let (f, ended, failure, _) := (lanes.zip outcomes).foldl step (none, 0, none, 0)
  let failure := match failure with
    | none => if ended ≠ 0 ∧ ended ≠ lanes.length then
        some (.corrupt (.endedEarly ended lanes.length)) else none
    | some e => some e
  match failure with
  | some e => .error e
  | none => .ok f

/-- Moves every input to its next field; they must all reach the same field or all end. -/
def nextField : Step (Merger τ) Bool := do
  if (← get).closed then throw (.closed .merger)
  modify resetTerm
  let lanes := (← get).lanes
  let (outcomes, lanes) := (Step.onEach (Step.attempt (Lane.onInner Cursor.nextField))).apply lanes
  let outcomes := match outcomes with
    | .ok os => os
    | .error _ => []
  match agree lanes outcomes with
  | .error e =>
    modify fun m => { m with stage := .idle lanes }
    throw e
  | .ok none =>
    modify fun m => { m with stage := .idle lanes }
    return false
  | .ok (some f) =>
    match TermMerge.create lanes with
    | .ok merge =>
      modify fun m => { m with field := f, stage := .merging merge }
      return true
    | .error e =>
      modify fun m => { m with stage := .idle lanes }
      throw e

/-- Adds the groups one contributor sends for the current term, at most `fuel` of them. -/
def addGroups (index : Nat) : Nat → Step (Merger τ) Unit
  | 0 => pure ()
  | fuel + 1 => do
    if (← onLane index Cursor.nextGroup) ≠ some true then return
    let m ← get
    match m.lane? index with
    | none => return
    | some c =>
      let g := Cursor.group c
      if g ≥ m.numGroups then throw (.corrupt (.strayGroup index g m.numGroups))
      set { m with totals := m.totals.add g (Cursor.stats c), seen := m.seen.insert g }
      addGroups index fuel

/-- Adds the groups of every contributor, in index order, and lists the groups seen. -/
def accumulate : Step (Merger τ) Unit := do
  let m ← get
  match m.stage with
  | .merging merge =>
    for i in merge.contributors do
      let fuel := ((m.lane? i).map Cursor.budget).getD 0 + 1
      addGroups i fuel
    modify fun m => { m with seen := m.seen.sort, groups := m.seen.sorted }
  | _ => pure ()

/-- Moves to the next merged term and sums its groups. -/
def nextTerm : Step (Merger τ) Bool := do
  modify resetTerm
  match ← onMerge TermMerge.next with
  | some true =>
    accumulate
    return true
  | _ => return false

/-- Moves to the next group of the current term. -/
def nextGroup : Step (Merger τ) Bool := do
  let m ← get
  if m.groupPos ≥ m.groups.length then
    set { m with groupPos := m.groups.length + 1 }
    return false
  set { m with groupPos := m.groupPos + 1 }
  return true

/-- The current group. -/
def group (m : Merger τ) : GroupId := (m.groups[m.groupPos - 1]?).getD 0

/-- Closes the merge and its inputs, reporting the first failure; closing again does
nothing. -/
def close : Step (Merger τ) Unit := do
  let m ← get
  if m.closed then return
  set ({ m with closed := true, stage := .empty } : Merger τ)
  match m.stage with
  | .merging merge =>
    let (r, _) := TermMerge.close.apply merge
    match r with
    | .error e => throw e
    | .ok _ => pure ()
  | .idle lanes =>
    let (rs, _) := (Step.onEach (Step.attempt (Lane.onInner Cursor.close))).apply lanes
    match rs with
    | .ok outcomes =>
      match outcomes.find? (·.toBool == false) with
      | some (.error e) => throw e
      | _ => pure ()
    | .error e => throw e
  | .empty => pure ()

instance : Cursor (Merger τ) where
  numStats m := m.numStats
  numGroups m := m.numGroups
  nextField := nextField
  field m := m.field
  nextTerm := nextTerm
  term m := match m.stage with
    | .merging merge => merge.current.getD (.int 0)
    | _ => .int 0
  docFreq m := match m.stage with
    | .merging merge => merge.docFreq
    | _ => 0
  nextGroup := nextGroup
  group := group
  stats m := m.totals.row (group m) m.numStats
  close := close
  budget m := m.lanes.foldl (fun n l => n + Cursor.budget l.inner) 0 + m.groups.length + 1

end Merger

end GroupStats
