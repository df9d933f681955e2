import GroupStats.Session.Shard
import GroupStats.Merge.Streams
import GroupStats.Split.Splitter

/-!
# Aggregation rounds

A round works on snapshots of the shard sessions: a copy of each group assignment, claimed
from the pool for the length of the round, so that regroups issued meanwhile cannot change
what the round sees. Each snapshot opens a stream with its own claim; the streams are merged
under one more claim and the merged stream is split by term into the outputs.

All of a round's claims are given back when it ends, whether it succeeds or not, so a round
changes the pool not at all; a claim it cannot make fails the round, and every output is then
closed with nothing in it.
-/

namespace GroupStats

/-- A frozen copy of one shard session for one round. -/
structure Snapshot where
  shard : Shard
  lookup : Lookup
  columns : List StatColumn
  batch : Nat
  claimed : UInt64

namespace Snapshot

/-- Takes a snapshot of an open session, claiming its copy of the assignment. -/
def take (s : ShardSession) (p : Memory.Pool) : Except Error (Snapshot × Memory.Pool) := do
  if s.closed then throw (.closed .shardSession)
  let bytes := ShardSession.lookupBytes s.lookup.size
  let p ← p.claim bytes
  let l ← s.lookup.copyInto (Lookup.create s.lookup.size 0)
  pure (⟨s.shard, l, s.stats.columns, s.batch, bytes⟩, p)

/-- Opens the stream of a snapshot over fields, claiming its per-group buffers. -/
def stream (c : Snapshot) (fields : List Field) (p : Memory.Pool) :
    Except Error (ShardStream × Memory.Pool) := do
  let bytes := ShardStream.memoryFor c.lookup.numGroups c.columns.length
  let p ← p.claim bytes
  pure (ShardStream.create c.shard c.lookup c.columns fields c.batch bytes, p)

/-- Applies a claiming step to each item in order, stopping at the first failure. -/
def claimEach (f : α → Memory.Pool → Except Error (β × Memory.Pool)) :
    List α → Memory.Pool → Except Error (List β × Memory.Pool)
  | [], p => .ok ([], p)
  | a :: rest, p => do
    let (b, p) ← f a p
    let (bs, p) ← claimEach f rest p
    pure (b :: bs, p)

/-- Runs one round over shard sessions: snapshots, streams, the merge, and the split of the
merged stream into `k` outputs. Gives the round's outcome and what each output received. -/
def aggregate (shards : List ShardSession) (pool : Memory.Pool) (fields : List Field)
    (splitter : Splitter) (k : Nat) : Except Error Unit × List Bytes :=
  let untouched := List.replicate k []
  let merged : Except Error (Merger ShardStream) := do
    let (snaps, pool) ← claimEach take shards pool
    let (streams, pool) ← claimEach (fun c => c.stream fields) snaps pool
    let ng := streams.foldl (fun g s => if g < s.lookup.numGroups then s.lookup.numGroups else g) 1
    let ns := (streams.head?.map (·.columns.length)).getD 0
    let _ ← pool.claim (Merger.memoryFor ng ns)
    Merger.create streams
  match merged with
  | .error e => (.error e, untouched)
  | .ok merger =>
    let (r, f) := splitter.spill merger k none
    (r, (List.range k).map f.sinks.data)

end Snapshot

end GroupStats
