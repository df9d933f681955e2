import GroupStats.Session.Request
import GroupStats.Memory.Basic
import GroupStats.Shard.Stream
import GroupStats.Group.Regroup
import GroupStats.Group.Summary
import GroupStats.Group.StatStack

/-!
# Shard sessions

A `ShardSession` holds the group assignment and the stat stack of one shard. Every byte it
keeps is claimed from a memory pool: four per document for the assignment at opening, eight
per document for each pushed stat. Summaries claim their per-group buffers for the time they
run, and a stream holds its claim for as long as it lives.

A request that fails changes nothing, neither the session nor the pool. A closed session
refuses every request; closing gives back everything it claimed, and closing again does
nothing.
-/

namespace GroupStats

/-- The group assignment and stat stack of one shard. -/
structure ShardSession where
  shard : Shard
  lookup : Lookup
  stats : StatStack := {}
  statClaims : List UInt64 := []
  lookupClaim : UInt64
  batch : Nat
  closed : Bool := false

namespace ShardSession

/-- A step of a session that claims through a pool. -/
abbrev Op (α : Type) := Step (ShardSession × Memory.Pool) α

/-- The bytes of a group assignment of `size` documents. -/
def lookupBytes (size : Nat) : UInt64 := 4 * size.toUInt64

/-- Opens a session with every document in the initial group, claiming the assignment.
Documents are read in batches of at least one. -/
def create (shard : Shard) (pool : Memory.Pool) (batch : Nat) (initial : GroupId) :
    Except Error (ShardSession × Memory.Pool) := do
  let bytes := lookupBytes shard.numDocs
  let pool ← pool.claim bytes
  let lookup := Lookup.create shard.numDocs initial
  pure ({ shard, lookup, lookupClaim := bytes, batch := max batch 1 }, pool)

/-- Runs a computation on an open session, refusing a closed one. -/
def whenOpen (f : ShardSession → Memory.Pool → Except Error (α × ShardSession × Memory.Pool)) :
    Op α := do
  let (s, p) ← get
  if s.closed then throw (.closed .shardSession)
  match f s p with
  | .ok (a, s', p') => set (s', p'); pure a
  | .error e => throw e

/-- The group assignment a regroup leaves. -/
def regrouped (s : ShardSession) : Regroup → Except Error Lookup
  | .rules rs => s.lookup.regroup s.shard s.batch rs
  | .multisplit rs strict => s.lookup.multisplit s.shard s.batch rs strict
  | .termOr f ts t n p => s.lookup.termOr s.shard s.batch f ts t n p
  | .random f salt x t n p => s.lookup.random s.shard s.batch f salt x t n p
  | .metric i b => do s.lookup.metric (← s.stats.get i) s.batch b
  | .metricFilter i lo hi neg => do s.lookup.metricFilter (← s.stats.get i) s.batch lo hi neg
  | .randomMulti f salt t th rs => s.lookup.randomMulti s.shard s.batch f salt t th rs
  | .targetedFilter i lo hi t n p => do
    s.lookup.targetedMetricFilter (← s.stats.get i) s.batch lo hi t n p
  | .remap src dst fl => s.lookup.remap src dst fl
  | .reset => .ok (s.lookup.fill 1).recalculate

/-- Regroups the shard; gives the new group bound. -/
def regroup (r : Regroup) : Op UInt32 :=
  whenOpen fun s p => do
    let l ← s.regrouped r
    pure (l.numGroups, { s with lookup := l }, p)

/-- Pushes a stat, claiming its column; gives the new depth. -/
def pushStat (metric : String) : Op Nat :=
  whenOpen fun s p => do
    let c ← s.shard.stat metric
    let bytes := c.memoryUsed
    let p ← p.claim bytes
    let (stats, depth) := s.stats.push metric c
    pure (depth, { s with stats, statClaims := s.statClaims ++ [bytes] }, p)

/-- Pops the most recent stat, giving back its column; gives the new depth. -/
def popStat : Op Nat :=
  whenOpen fun s p => do
    let (_, _, stats) ← s.stats.pop
    let p := match s.statClaims.getLast? with
      | some bytes => p.release bytes
      | none => p
    pure (stats.depth, { s with stats, statClaims := s.statClaims.dropLast }, p)

/-- The per-group sums of a stat, with a buffer per group claimed while they are summed. -/
def groupStats (i : Nat) : Op (List Int64) :=
  whenOpen fun s p => do
    let c ← s.stats.get i
    let sums ← p.during (8 * s.lookup.numGroups.toUInt64) (s.lookup.sumByGroup c s.batch)
    pure (sums.toList, s, p)

/-- The summed document frequency of every term of the fields. -/
def totalDocFreq (fields : List Field) : Op UInt64 :=
  whenOpen fun s p => pure (s.shard.totalDocFreq fields, s, p)

/-- The per-group counts of distinct terms of a field, with a one-stat stream buffer claimed
while they are counted. -/
def distinct (f : Field) : Op (List Int64) :=
  whenOpen fun s p => do
    let counts ← p.during (ShardStream.memoryFor s.lookup.numGroups 1)
      (s.lookup.distinctByGroup s.shard s.batch f)
    pure (counts.toList, s, p)

/-- Opens a stream over fields under a copy of the current assignment; the stream's claim
stays in the pool until `release` gives it back. -/
def stream (fields : List Field) : Op ShardStream :=
  whenOpen fun s p => do
    let bytes := lookupBytes s.lookup.size + ShardStream.memoryFor s.lookup.numGroups s.stats.depth
    let p ← p.claim bytes
    pure (ShardStream.create s.shard s.lookup s.stats.columns fields s.batch bytes, s, p)

/-- Closes the session, giving back every claim; a closed session stays as it is. -/
def close : Op Unit := do
  let (s, p) ← get
  if s.closed then return
  let bytes := s.lookupClaim + s.statClaims.foldl (· + ·) 0
  set ({ s with closed := true, stats := {}, statClaims := [] }, p.release bytes)

/-- Serves a request. -/
def serve : Request → Op Reply
  | .regroup r => do
    let n ← regroup r
    pure (if r.answersBound then .bound n else .done)
  | .pushStat m => .depth <$> pushStat m
  | .popStat => .depth <$> popStat
  | .groupStats i => .values <$> groupStats i
  | .totalDocFreq fs => .docFreq <$> totalDocFreq fs
  | .distinct f => .values <$> distinct f
  | .close => close *> pure .done

/-- The session as the engine describes it. -/
def debug (s : ShardSession) : String :=
  "ShardSession \x7b num_docs: " ++ toString s.lookup.size ++ ", num_groups: " ++
    toString s.lookup.numGroups ++ ", stats: " ++ s.stats.debug ++ ", closed: " ++
    toString s.closed ++ " \x7d"

end ShardSession

end GroupStats
