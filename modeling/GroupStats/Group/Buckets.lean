import GroupStats.Error

/-!
# Metric buckets

A metric regroup cuts `[min, max)` into buckets of `interval` values and gives every source
group its own run of groups: source group `g` expands into the groups after
`(g - 1) · perSource`. A value inside the range goes to its bucket, numbered from one; with
gutters a value below the range goes to the group after the last bucket and a value at or
above it to the one after that, and without gutters both leave for group 0. All of it is
exact integer arithmetic, division rounding toward zero, and a destination keeps the low 32
bits of its number.
-/

namespace GroupStats

/-- The shape of a metric bucketing. -/
structure Buckets where
  min : Int64
  max : Int64
  interval : Int64
  noGutters : Bool
  deriving DecidableEq, Repr

namespace Buckets

/-- The number of buckets inside the range, as an integer. -/
def count (b : Buckets) : Int := Int.tdiv (b.max.toInt - 1 - b.min.toInt) b.interval.toInt + 1

/-- The number of buckets as a 64-bit value; a count that does not fit is the largest one. -/
def numBuckets (b : Buckets) : Int64 :=
  let c := b.count
  if -Int.pow 2 63 ≤ c ∧ c < Int.pow 2 63 then Int64.ofInt c else Int64.ofInt (Int.pow 2 63 - 1)

/-- The groups each source group expands into, the two gutters included, saturating. -/
def perSource (b : Buckets) : Int64 :=
  if b.noGutters then b.numBuckets
  else
    let n := b.numBuckets.toInt + 2
    if n < Int.pow 2 63 then Int64.ofInt n else Int64.ofInt (Int.pow 2 63 - 1)

/-- The low 32 bits of an integer, as a group id. -/
def lowWord (x : Int) : GroupId := (x % Int.pow 2 32).toNat.toUInt32

/-- The group a document of group `g` with value `v` goes to. -/
def destination (b : Buckets) (g : GroupId) (v : Int64) : GroupId :=
  let base := ((g.toNat : Int) - 1) * b.perSource.toInt
  if v < b.min then (if b.noGutters then noGroup else lowWord (base + b.count + 1))
  else if v ≥ b.max then (if b.noGutters then noGroup else lowWord (base + b.count + 2))
  else lowWord (base + Int.tdiv (v.toInt - b.min.toInt) b.interval.toInt + 1)

/-- A bucketing must have a positive interval, a non-empty range, and room below the group
bound for every source group of a lookup with `numGroups` groups. -/
def validate (b : Buckets) (numGroups : UInt32) : Except Error Unit := do
  if b.interval ≤ 0 then throw (.invalidArgument (.interval b.interval))
  if b.max ≤ b.min then throw (.invalidArgument (.bucketRange b.min b.max))
  let per := if b.noGutters then b.count else b.count + 2
  let sources : Int := (if numGroups < 1 then 1 else numGroups).toNat
  let needed := (sources - 1) * per + 1
  if needed > (maxNumGroups.toNat : Int) then throw (.invalidArgument (.tooManyGroups needed))

end Buckets

end GroupStats
