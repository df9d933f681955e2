import GroupStats.Group.Rules
import GroupStats.Group.Buckets

/-!
# Session requests

The requests a session serves: regroups that move documents between groups, pushes and pops
of stats, and per-group summaries. A shard session serves them on one shard; a multi-session
serves each on every shard and combines the answers.
-/

namespace GroupStats

/-- A regroup request. Stats are named by their depth in the stat stack. -/
inductive Regroup where
  | rules (rules : List Rule)
  | multisplit (rules : List MultiRule) (strict : Bool)
  | termOr (field : Field) (terms : List Term) (target negative positive : GroupId)
  | random (field : Field) (salt : String) (p : Float) (target negative positive : GroupId)
  | metric (stat : Nat) (buckets : Buckets)
  | metricFilter (stat : Nat) (min max : Int64) (negate : Bool)
  | randomMulti (field : Field) (salt : String) (target : GroupId) (thresholds : List Float)
      (results : List GroupId)
  | targetedFilter (stat : Nat) (min max : Int64) (target negative positive : GroupId)
  | remap (sources destinations : List GroupId) (filter : Bool)
  | reset

namespace Regroup

/-- Whether a shard session answers the regroup with its new group bound; the term-set and
random splits of one target answer nothing. -/
def answersBound : Regroup → Bool
  | .termOr .. => false
  | .random .. => false
  | _ => true

end Regroup

/-- A request to a session. -/
inductive Request where
  | regroup (r : Regroup)
  | pushStat (metric : String)
  | popStat
  | groupStats (stat : Nat)
  | totalDocFreq (fields : List Field)
  | distinct (field : Field)
  | close

/-- The answer to a request. -/
inductive Reply where
  | done
  | bound (numGroups : UInt32)
  | depth (n : Nat)
  | values (xs : List Int64)
  | docFreq (n : UInt64)
  deriving DecidableEq, Repr

end GroupStats
