import GroupStats.Core.Term

/-!
# Document bitsets and seen groups

A `DocBits` marks ids of `[0, size)`; it is stored as the ascending list of the marked ids,
and its memory is counted as the 64-bit words a dense layout needs. A `SeenGroups` records
the groups a term touched: the marks say which, and the list keeps them in the order they came,
with a flag saying whether that order is already ascending, so that reading them sorted and
forgetting them cost work in proportion to the groups seen.
-/

namespace GroupStats

/-- A set of ids below `size`, as the ascending list of its members. -/
structure DocBits where
  size : Nat
  members : List Nat := []
  deriving DecidableEq, Repr

namespace DocBits

/-- Inserts an id into an ascending list of distinct ids. -/
def insertSorted (x : Nat) : List Nat → List Nat
  | [] => [x]
  | y :: ys => if x < y then x :: y :: ys else if x = y then y :: ys else y :: insertSorted x ys

/-- An empty set of `size` ids. -/
def empty (size : Nat) : DocBits := { size }

/-- Whether an id is marked. -/
def get (b : DocBits) (id : Nat) : Bool := b.members.contains id

/-- Marks an id. -/
def set (b : DocBits) (id : Nat) : DocBits := { b with members := insertSorted id b.members }

/-- Unmarks an id. -/
def clear (b : DocBits) (id : Nat) : DocBits := { b with members := b.members.erase id }

/-- Unmarks every id. -/
def clearAll (b : DocBits) : DocBits := { b with members := [] }

/-- The set with the given ids marked. -/
def ofIds (size : Nat) (ids : List Nat) : DocBits := ids.foldl set (empty size)

/-- The number of marked ids. -/
def cardinality (b : DocBits) : Nat := b.members.length

/-- The marked ids, ascending. -/
def ids (b : DocBits) : List Nat := b.members

/-- The bytes of the dense layout: one 64-bit word for every 64 ids. -/
def memoryBytes (b : DocBits) : Nat := 8 * ((b.size + 63) / 64)

@[simp] theorem get_set_self (b : DocBits) (id : Nat) : (b.set id).get id = true := by
  simp only [get, set]
  induction b.members with
  | nil => simp [insertSorted]
  | cons y ys ih =>
    simp only [insertSorted]
    split
    · simp
    · split <;> simp_all

end DocBits

/-- The groups a term touched, in arrival order, with their marks. -/
structure SeenGroups where
  bits : DocBits
  list : List GroupId := []
  ascending : Bool := true
  deriving DecidableEq, Repr

namespace SeenGroups

/-- A tracker for groups below `capacity`. -/
def empty (capacity : Nat) : SeenGroups := { bits := DocBits.empty capacity }

/-- The group bound the tracker was made for. -/
def capacity (s : SeenGroups) : Nat := s.bits.size

/-- Records a group; a group seen before changes nothing. -/
def insert (s : SeenGroups) (g : GroupId) : SeenGroups :=
  if s.bits.get g.toNat then s
  else
    { bits := s.bits.set g.toNat
      list := s.list ++ [g]
      ascending := s.ascending && s.list.getLast?.all (· ≤ g) }

/-- Whether a group was recorded. -/
def contains (s : SeenGroups) (g : GroupId) : Bool := s.bits.get g.toNat

/-- The number of recorded groups. -/
def size (s : SeenGroups) : Nat := s.list.length

/-- Sorts the list if needed; the tracker then holds the groups ascending. -/
def sort (s : SeenGroups) : SeenGroups :=
  if s.ascending then s else { s with list := s.list.mergeSort (· ≤ ·), ascending := true }

/-- The recorded groups, ascending. -/
def sorted (s : SeenGroups) : List GroupId := s.sort.list

/-- Forgets every recorded group. -/
def clear (s : SeenGroups) : SeenGroups :=
  { bits := s.list.foldl (fun b g => b.clear g.toNat) s.bits, list := [], ascending := true }

end SeenGroups

end GroupStats
