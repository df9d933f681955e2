import GroupStats.Group.Lookup
import GroupStats.Group.Buckets
import GroupStats.Shard.Basic
import GroupStats.Hash.Fraction

/-!
# Regroups

The operations that move the documents of a shard between groups. Condition-driven ones scan
the ascending terms of the fields their rules read and see each term's documents in batches;
metric-driven ones walk the documents in order, in batches, with their stat values. Every
regroup ends by recalculating the group bound, and one that fails leaves the lookup as it was.
No regroup but a reset moves a document out of group 0, unless a split that compares every
document's group with its target is given group 0 as that target.
-/

namespace GroupStats

namespace Shard

/-- The visits of a scan of a field: each term with one batch of its documents, terms
ascending. -/
def visits (s : Shard) (f : Field) (batch : Nat) : List (Term × List DocId) :=
  (s.lists f).flatMap fun (t, docs) => (chunks batch docs).map (t, ·)

end Shard

namespace Lookup

/-- Rule regroup. Documents whose rule fires for a term they hold move to the rule's positive
group; afterwards the other documents of a ruled group move to its negative group, and the
documents of groups without a rule to group 0. -/
def regroup (l : Lookup) (s : Shard) (batch : Nat) (rules : List Rule) : Except Error Lookup := do
  let table ← RuleTable.build rules l.numGroups
  let (l, marked) := table.fields.foldl (fun acc f =>
    (s.visits f batch).foldl (fun (l, marked) (t, docs) => l.applyConditions docs marked table f t)
      acc) (l, DocBits.empty l.size)
  let l := (List.range l.size).foldl (fun l i =>
    if marked.get i then l
    else
      let d := i.toUInt32
      l.set d (((table.get? (l.get d)).map (·.negative)).getD noGroup)) l
  return l.recalculate

/-- Notes that condition `i` fired for a document: its slot keeps the lowest index fired; with
`strict`, a second different index is a collision. -/
def noteFiring (matched : Array (Option Nat)) (d : DocId) (i : Nat) (strict : Bool) :
    Except Error (Array (Option Nat)) :=
  match matched.getD d.toNat none with
  | some j =>
    if j ≠ i ∧ strict then throw (.invalidArgument (.collision d j i))
    else pure (matched.setIfInBounds d.toNat (some (if i < j then i else j)))
  | none => pure (matched.setIfInBounds d.toNat (some i))

/-- Checks, in order, the conditions of the rule of a document's group against a term the
document holds in a field. -/
def matchDoc (l : Lookup) (table : RuleTable MultiRule) (strict : Bool) (f : Field) (t : Term)
    (matched : Array (Option Nat)) (d : DocId) : Except Error (Array (Option Nat)) :=
  match table.get? (l.get d) with
  | none => pure matched
  | some r =>
    r.conditions.zipIdx.foldlM (fun matched (c, i) =>
      if c.fires f t then noteFiring matched d i strict else pure matched) matched

/-- The condition indices that fire for each document, lowest first; with `strict`, a second
different index is a collision. -/
def matchConditions (l : Lookup) (s : Shard) (batch : Nat) (table : RuleTable MultiRule)
    (strict : Bool) : Except Error (Array (Option Nat)) :=
  table.fields.foldlM (fun matched f =>
    (s.visits f batch).foldlM (fun matched (t, docs) =>
      docs.foldlM (l.matchDoc table strict f t) matched) matched)
    (Array.replicate l.size none)

/-- Where a multi-way regroup sends a document of group `g` whose slot holds the lowest
condition index that fired for it, if any. -/
def multiTarget (table : RuleTable MultiRule) (slot : Option Nat) (g : GroupId) : GroupId :=
  match table.get? g with
  | none => noGroup
  | some r =>
    match slot with
    | none => r.negative
    | some k => r.positives.getD k noGroup

/-- Multi-way regroup: the lowest-index condition that fires for a document of a ruled group
picks its destination, the negative group when none fires; documents of groups without a rule
go to group 0. With `strict`, a document for which two different conditions fire fails the
regroup. -/
def multisplit (l : Lookup) (s : Shard) (batch : Nat) (rules : List MultiRule) (strict : Bool) :
    Except Error Lookup := do
  let table ← RuleTable.build rules l.numGroups
  let matched ← l.matchConditions s batch table strict
  let l := (List.range l.size).foldl (fun l i =>
    let d := i.toUInt32
    l.set d (multiTarget table (matched.getD i none) (l.get d))) l
  return l.recalculate

/-- The documents holding, in a field, a term that passes a test. -/
def marking (l : Lookup) (s : Shard) (batch : Nat) (f : Field) (test : Term → Bool) : DocBits :=
  (s.visits f batch).foldl (fun bits (t, docs) =>
    if test t then docs.foldl (fun b d => b.set d.toNat) bits else bits) (DocBits.empty l.size)

/-- Splits a target group by a set of terms: its documents holding one of them in the field
go to the positive group, the rest to the negative group. Each term of the field is looked up
by binary search in the terms sorted without repeats. -/
def termOr (l : Lookup) (s : Shard) (batch : Nat) (f : Field) (terms : List Term)
    (target negative positive : GroupId) : Except Error Lookup := do
  checkGroups [negative, positive]
  let wanted := Term.sortedSet terms
  let bits := l.marking s batch f (Term.search wanted)
  let l ← l.bitSetRegroup bits target negative positive
  return l.recalculate

/-- Splits a target group at random: its documents holding a term whose salted fraction is
below `p` go to the positive group, the rest to the negative group. -/
def random (l : Lookup) (s : Shard) (batch : Nat) (f : Field) (salt : String) (p : Float)
    (target negative positive : GroupId) : Except Error Lookup := do
  if !(0.0 ≤ p && p ≤ 1.0) then throw (.invalidArgument (.probability p))
  checkGroups [negative, positive]
  let bits := l.marking s batch f fun t => t.fraction salt < p
  let l ← l.bitSetRegroup bits target negative positive
  return l.recalculate

/-- Splits a target group over result groups by thresholds: a document goes to the first
result group whose threshold exceeds the least salted fraction of its terms, and to the last
when none does or it holds no term of the field. -/
def randomMulti (l : Lookup) (s : Shard) (batch : Nat) (f : Field) (salt : String)
    (target : GroupId) (thresholds : List Float) (results : List GroupId) :
    Except Error Lookup := do
  if results.length ≠ thresholds.length + 1 then
    throw (.invalidArgument (.thresholdCount thresholds.length results.length))
  let ascending := (thresholds.zip thresholds.tail).all fun (a, b) => !(b < a)
  if !(thresholds.all fun p => 0.0 ≤ p && p ≤ 1.0) || !ascending then
    throw (.invalidArgument .thresholdOrder)
  checkGroups results
  let least := (s.visits f batch).foldl (fun fr (t, docs) =>
    let x := t.fraction salt
    docs.foldl (fun fr d =>
      if l.get d = target then
        let old := fr.getD d.toNat 1.0
        fr.setIfInBounds d.toNat (if x < old then x else old)
      else fr) fr) (Array.replicate l.size 1.0)
  let l := (List.range l.size).foldl (fun l i =>
    let d := i.toUInt32
    if l.get d ≠ target then l
    else
      let x := least.getD i 1.0
      let k := (thresholds.findIdx? fun p => x < p).getD thresholds.length
      l.set d (results.getD k noGroup)) l
  return l.recalculate

/-- Moves every document outside group 0 by a function of its group and stat value, walking
the positions of the assignment in order, in batches: a batch reads the groups at its
positions and writes the moved groups to the documents those positions number. The stat must
cover every document. -/
def remapByStat (l : Lookup) (stat : StatColumn) (batch : Nat) (move : GroupId → Int64 → GroupId) :
    Except Error Lookup := do
  if stat.numDocs < l.size then throw (.sizeMismatch l.size stat.numDocs)
  return (chunks batch (List.range l.size)).foldl (fun l part =>
    let docs := part.map Nat.toUInt32
    let groups := (part.map (l.groups.getD · 0)).zip (stat.lookup docs) |>.map fun (g, v) =>
      if g = noGroup then g else move g v
    l.batchSet docs groups) l

/-- Bucketises the documents of every group by a stat. -/
def metric (l : Lookup) (stat : StatColumn) (batch : Nat) (b : Buckets) : Except Error Lookup := do
  b.validate l.numGroups
  let l ← l.remapByStat stat batch b.destination
  return l.recalculate

/-- Keeps the documents whose value lies in `[min, max]`, or with `negate` those outside it;
the others go to group 0. -/
def metricFilter (l : Lookup) (stat : StatColumn) (batch : Nat) (min max : Int64) (negate : Bool) :
    Except Error Lookup := do
  if max < min then throw (.invalidArgument (.filterRange min max))
  let l ← l.remapByStat stat batch fun g v =>
    if (min ≤ v && v ≤ max) != negate then g else noGroup
  return l.recalculate

/-- Splits a target group by a stat range: documents with a value in `[min, max]` go to the
positive group, the others to the negative group. -/
def targetedMetricFilter (l : Lookup) (stat : StatColumn) (batch : Nat) (min max : Int64)
    (target negative positive : GroupId) : Except Error Lookup := do
  if max < min then throw (.invalidArgument (.filterRange min max))
  checkGroups [negative, positive]
  let l ← l.remapByStat stat batch fun g v =>
    if g ≠ target then g else if min ≤ v && v ≤ max then positive else negative
  return l.recalculate

/-- Renames groups: each source group becomes its destination, the first pairing of a
repeated source winning; other groups keep their id, or go to group 0 with `filter`. -/
def remap (l : Lookup) (sources destinations : List GroupId) (filter : Bool) :
    Except Error Lookup := do
  if sources.length ≠ destinations.length then
    throw (.invalidArgument (.remapLengths sources.length destinations.length))
  checkGroups destinations
  let pairs := (sources.zip destinations).filter fun (src, _) => src < l.numGroups
  let l := (List.range l.size).foldl (fun l i =>
    let d := i.toUInt32
    let g := l.get d
    if g = noGroup then l
    else match pairs.find? (·.1 == g) with
      | some (_, dst) => l.set d dst
      | none => if filter then l.set d noGroup else l) l
  return l.recalculate

end Lookup

end GroupStats
