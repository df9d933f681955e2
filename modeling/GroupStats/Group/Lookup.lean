import GroupStats.Group.Bits
import GroupStats.Group.Rules
import GroupStats.Group.Totals
import GroupStats.Shard.Column

/-!
# Group lookups

A `Lookup` gives every document of a shard its group; group 0 holds the documents that take
part in nothing. It keeps an exclusive bound on the groups it holds: every assignment raises
the bound past the group assigned, saturating at the largest word, and `recalculate` sets it
to one more than the largest group, or one for a lookup with no documents.
-/

namespace GroupStats

/-- The successor of a group id, saturating at the largest word. -/
def succSat (g : GroupId) : UInt32 := if g = 4294967295 then g else g + 1

/-- The buffers of one batch of a term's documents: their ids and their groups. -/
structure Scratch where
  docIds : Array DocId
  groups : Array GroupId
  deriving DecidableEq, Repr

/-- What adding one batch leaves: the number of documents kept, the buffers, the per-group
totals and the groups seen. -/
structure Batch where
  kept : Nat
  scratch : Scratch
  totals : Totals
  seen : SeenGroups

/-- The group of every document, with a bound on the groups held. -/
structure Lookup where
  groups : Array GroupId
  numGroups : UInt32
  deriving DecidableEq, Repr

namespace Lookup

/-- A lookup of `size` documents, all in `initial`. -/
def create (size : Nat) (initial : GroupId) : Lookup :=
  ⟨Array.replicate size initial, succSat initial⟩

/-- The number of documents. -/
def size (l : Lookup) : Nat := l.groups.size

/-- Sets the bound to one more than the largest group held, or one when there is none. -/
def recalculate (l : Lookup) : Lookup :=
  { l with numGroups := l.groups.foldl (fun m g => if m < succSat g then succSat g else m) 1 }

/-- A lookup holding the given assignment, with its bound recalculated. -/
def ofGroups (groups : Array GroupId) : Lookup := recalculate ⟨groups, 1⟩

/-- The group of a document. -/
def get (l : Lookup) (doc : DocId) : GroupId := l.groups.getD doc.toNat 0

/-- Raises the bound past a group. -/
def bump (l : Lookup) (g : GroupId) : Lookup :=
  if g ≥ l.numGroups then { l with numGroups := succSat g } else l

/-- Moves a document to a group. -/
def set (l : Lookup) (doc : DocId) (g : GroupId) : Lookup :=
  bump { l with groups := l.groups.setIfInBounds doc.toNat g } g

/-- Moves every document to a group. -/
def fill (l : Lookup) (g : GroupId) : Lookup := ⟨Array.replicate l.size g, succSat g⟩

/-- Moves each listed document to the group at the same place of the second list, up to the
shorter of the two. -/
def batchSet (l : Lookup) (docs : List DocId) (groups : List GroupId) : Lookup :=
  (docs.zip groups).foldl (fun l (d, g) => l.set d g) l

/-- The groups of the listed documents. -/
def groupsOf (l : Lookup) (docs : List DocId) : List GroupId := docs.map l.get

/-- Writes the group of each listed document over the matching slot of a buffer. Slots past
the last document keep what they held, and documents past the last slot are not read. -/
def fillBuffer (l : Lookup) : List DocId → List GroupId → List GroupId
  | d :: docs, _ :: out => l.get d :: l.fillBuffer docs out
  | _, out => out

/-- The groups of `len` consecutive documents from `start`. -/
def slice (l : Lookup) (start len : Nat) : List GroupId :=
  (l.groups.extract start (start + len)).toList

/-- The bytes of the assignment. -/
def memoryUsed (l : Lookup) : UInt64 := 4 * l.size.toUInt64

/-- Moves each listed document that is not yet marked, and whose group has a rule firing for
the term, to the rule's positive group, and marks it. -/
def applyConditions (l : Lookup) (docs : List DocId) (marked : DocBits) (table : RuleTable Rule)
    (f : Field) (t : Term) : Lookup × DocBits :=
  docs.foldl (fun (l, marked) d =>
    if marked.get d.toNat then (l, marked)
    else match table.get? (l.get d) with
      | none => (l, marked)
      | some r =>
        if r.condition.fires f t then (l.set d r.positive, marked.set d.toNat) else (l, marked))
    (l, marked)

/-- The documents of a batch that are in a group other than 0, with their groups, in order. -/
def selected (l : Lookup) (docs : List DocId) : List (DocId × GroupId) :=
  docs.filterMap fun d => let g := l.get d; if g = noGroup then none else some (d, g)

/-- Drops the documents of group 0 among the first `n` of the buffers and moves the others, with
their groups, to the front, in order; gives how many are kept. The buffers are read and written
in place: the write for the `i`-th document lands at or before place `i`. -/
def compact (l : Lookup) (n : Nat) (sc : Scratch) : Nat × Scratch :=
  (List.range n).foldl (fun (head, sc) i =>
    let d := sc.docIds.getD i 0
    let g := l.get d
    if g = noGroup then (head, sc)
    else (head + 1, ⟨sc.docIds.setIfInBounds head d, sc.groups.setIfInBounds head g⟩)) (0, sc)

/-- Adds one batch of a term's documents, the first `n` of the buffers, to the per-group totals:
the documents of group 0 are dropped and the others compacted to the front of the buffers, their
groups are recorded as seen, and each stat's value of each of them is added to its group's row. -/
def nextGroupCallback (l : Lookup) (n : Nat) (sc : Scratch) (stats : List StatColumn)
    (totals : Totals) (seen : SeenGroups) : Batch :=
  let (head, sc) := l.compact n sc
  let docs := sc.docIds.toList.take head
  let groups := sc.groups.toList.take head
  let seen := groups.foldl SeenGroups.insert seen
  let totals := if stats.isEmpty then totals
    else (docs.zip groups).foldl (fun t (d, g) => t.add g (stats.map (·.get d))) totals
  ⟨head, sc, totals, seen⟩

/-- Adds one batch of a term's documents to the per-group totals through buffers that hold just
the batch; gives the documents kept with their groups. -/
def collectBatch (l : Lookup) (docs : List DocId) (stats : List StatColumn) (totals : Totals)
    (seen : SeenGroups) : List (DocId × GroupId) × Totals × SeenGroups :=
  let b := l.nextGroupCallback docs.length ⟨docs.toArray, Array.replicate docs.length 0⟩ stats
    totals seen
  ((b.scratch.docIds.toList.take b.kept).zip (b.scratch.groups.toList.take b.kept), b.totals,
    b.seen)

/-- Splits a target group by a bitset: marked documents go to the positive group, the others
to the negative group. The bitset must cover every document. -/
def bitSetRegroup (l : Lookup) (bits : DocBits) (target negative positive : GroupId) :
    Except Error Lookup := do
  if bits.size < l.size then throw (.sizeMismatch l.size bits.size)
  checkGroups [negative, positive]
  let groups := l.groups.mapIdx fun i g =>
    if g = target then (if bits.get i then positive else negative) else g
  return bump { l with groups } (if negative < positive then positive else negative)

/-- Copies the assignment and its bound onto a lookup of the same size. -/
def copyInto (l other : Lookup) : Except Error Lookup :=
  if l.size = other.size then .ok l else .error (.sizeMismatch l.size other.size)

end Lookup

end GroupStats
