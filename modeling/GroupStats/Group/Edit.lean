import GroupStats.Group.Regroup

/-!
# Edits of a group lookup

The ways a group assignment is changed directly, one document or all of them at a time, and
by the stat-driven regroups that need no shard. An edit that fails leaves the lookup as it
was; the regroups among them answer the new group bound.
-/

namespace GroupStats

namespace Lookup

/-- A change to a group assignment. -/
inductive Edit where
  | set (doc : DocId) (g : GroupId)
  | fill (g : GroupId)
  | batchSet (docs : List DocId) (groups : List GroupId)
  | bitSet (bits : DocBits) (target negative positive : GroupId)
  | recalculate
  | metric (stat : StatColumn) (batch : Nat) (buckets : Buckets)
  | metricFilter (stat : StatColumn) (batch : Nat) (min max : Int64) (negate : Bool)
  | targetedFilter (stat : StatColumn) (batch : Nat) (min max : Int64)
      (target negative positive : GroupId)
  | remap (sources destinations : List GroupId) (filter : Bool)

namespace Edit

/-- Whether the edit is a regroup, which answers the new group bound. -/
def isRegroup : Edit → Bool
  | .metric .. | .metricFilter .. | .targetedFilter .. | .remap .. => true
  | _ => false

end Edit

/-- Applies an edit. -/
def edit (l : Lookup) : Edit → Except Error Lookup
  | .set d g => .ok (l.set d g)
  | .fill g => .ok (l.fill g)
  | .batchSet ds gs => .ok (l.batchSet ds gs)
  | .bitSet bits t n p => l.bitSetRegroup bits t n p
  | .recalculate => .ok l.recalculate
  | .metric c b k => l.metric c b k
  | .metricFilter c b lo hi neg => l.metricFilter c b lo hi neg
  | .targetedFilter c b lo hi t n p => l.targetedMetricFilter c b lo hi t n p
  | .remap src dst fl => l.remap src dst fl

end Lookup

end GroupStats
