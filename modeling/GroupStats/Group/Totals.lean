import GroupStats.Core.Term

/-!
# Stat totals by group

While a stream stands on a term it sums, for each group, the stats of the documents or
inputs that reach the group. `Totals` keeps one row per group touched; a group without a row
has all totals zero, and clearing a group drops its row.
-/

namespace GroupStats

/-- Per-group rows of stat totals; a group without a row has all totals zero. -/
structure Totals where
  rows : List (GroupId × List Int64) := []
  deriving DecidableEq, Repr

namespace Totals

/-- The totals of a group, `n` wide. -/
def row (t : Totals) (g : GroupId) (n : Nat) : List Int64 :=
  ((t.rows.find? (·.1 == g)).map (·.2)).getD (List.replicate n 0)

/-- Adds stats to the row of a group, wrapping. -/
def add (t : Totals) (g : GroupId) (stats : List Int64) : Totals :=
  let old := t.row g stats.length
  { rows := (g, List.zipWith (· + ·) old stats) :: t.rows.filter (·.1 != g) }

/-- Clears the rows of the listed groups. -/
def reset (t : Totals) (gs : List GroupId) : Totals :=
  { rows := t.rows.filter fun r => !gs.contains r.1 }

/-- The totals stat by stat: for each of `n` stats, its total in each group below
`numGroups`. -/
def byStat (t : Totals) (numGroups n : Nat) : List (List Int64) :=
  (List.range n).map fun s => (List.range numGroups).map fun g => (t.row g.toUInt32 n).getD s 0

end Totals

end GroupStats
