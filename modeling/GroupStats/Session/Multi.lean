import GroupStats.Session.Shard
import GroupStats.Merge.Streams

/-!
# Multi-sessions

A `MultiSession` serves every request on each of its shard sessions, all claiming through one
shared pool, and combines the answers in shard order: the largest group bound, the
largest stack depth, sums of per-group values to the longest length, the saturating sum of
document frequencies. Distinct terms are counted on the merged stream of all shards, so a term
that several shards hold counts once per group.

The shards are served side by side, so the temporary claims of several shards may stand in the
pool at once. The model serves them one after another; results that rest on temporary claims
are stated where the pool has room for all of them at once, which no order can break.

A request that fails on any shard closes the whole multi-session and answers the first
failing shard's error. Closing gives back the fixed claim of the multi-session after closing
every shard session; anything the pool still holds then is reported as a leak.
-/

namespace GroupStats

/-- The table of the aggregation round gathering parties: the round's split count and fields,
and the splits registered so far, in arrival order. -/
structure Rendezvous where
  numSplits : Nat := 0
  fields : List Field := []
  arrived : List Nat := []
  deriving DecidableEq, Repr

/-- The shard sessions of one query, with their shared pool. -/
structure MultiSession where
  shards : List ShardSession
  pool : Memory.Pool
  prime : Int32
  numSplits : Nat
  claimed : UInt64
  closed : Bool := false
  table : Rendezvous := {}

namespace MultiSession

/-- Runs a step on each shard, one after another, threading the shared pool; gives every
shard's outcome. -/
def runShards (x : ShardSession.Op α) :
    List ShardSession → Memory.Pool → List (Except Error α) × List ShardSession × Memory.Pool
  | [], p => ([], [], p)
  | s :: rest, p =>
    let (r, s', p') := x.apply (s, p)
    let (rs, ss, p'') := runShards x rest p'
    (r :: rs, s' :: ss, p'')

/-- The values of a list of outcomes, or the first error among them. -/
def firstError : List (Except Error α) → Except Error (List α)
  | [] => .ok []
  | .error e :: _ => .error e
  | .ok a :: rest => (a :: ·) <$> firstError rest

/-- Opens a multi-session over shard sessions claiming through `pool`, with its fixed claim;
on failure the shard sessions are closed. -/
def create (shards : List ShardSession) (pool : Memory.Pool) (claimed : UInt64) (prime : Int32)
    (numSplits : Nat) : Except Error MultiSession × Memory.Pool :=
  let fail (e : Error) :=
    let (_, _, p) := runShards ShardSession.close shards pool
    (.error e, p)
  if shards.isEmpty then fail (.invalidArgument .noShards)
  else match pool.claim claimed with
    | .error e => fail e
    | .ok pool => (.ok { shards, pool, prime, numSplits, claimed }, pool)

/-- Opens a session on every shard, in order, on one pool, then a multi-session over them.
When a shard session cannot open, the sessions opened before it are dropped and the pool is
given back as it was. -/
def openAll (shards : List Shard) (pool : Memory.Pool) (batch : Nat) (initial : GroupId)
    (claimed : UInt64) (prime : Int32) (numSplits : Nat) : Except Error MultiSession × Memory.Pool :=
  let opened := shards.foldlM (fun (ss, p) sh => do
    let (s, p) ← ShardSession.create sh p batch initial
    pure (ss ++ [s], p)) ([], pool)
  match opened with
  | .error e => (.error e, pool)
  | .ok (ss, p) => create ss p claimed prime numSplits

/-- The largest group bound over the shards, one when there is none. -/
def numGroups (m : MultiSession) : UInt32 :=
  m.shards.foldl (fun g s => if g < s.lookup.numGroups then s.lookup.numGroups else g) 1

/-- The stat count of the first shard. -/
def numStats (m : MultiSession) : Nat := (m.shards.head?.map (·.stats.depth)).getD 0

/-- Closes the multi-session once: every shard session, then the fixed claim, then the pool,
whose leftover is reported as a leak. -/
def close : Step MultiSession Unit := do
  let m ← get
  if m.closed then return
  let (_, shards, pool) := runShards ShardSession.close m.shards m.pool
  let (pool, leak) := (pool.release m.claimed).close
  set { m with shards, pool, closed := true, table := {} }
  match leak with
  | .ok () => pure ()
  | .error e => throw e

/-- Runs a step on every shard. When one fails, what the others made is given back with
`drop`, the multi-session is closed, and the first failing shard's error is answered. -/
def execute (x : ShardSession.Op α) (drop : α → UInt64 := fun _ => 0) :
    Step MultiSession (List α) := do
  let m ← get
  if m.closed then throw (.closed .multiSession)
  let (rs, shards, pool) := runShards x m.shards m.pool
  set { m with shards, pool }
  match firstError rs with
  | .ok vs => pure vs
  | .error e =>
    let kept := rs.filterMap fun r => match r with
      | .ok v => some (drop v)
      | .error _ => none
    modify fun m => { m with pool := m.pool.release (kept.foldl (· + ·) 0) }
    let _ ← Step.attempt close
    throw e

/-- The largest of a list of bounds, or a default for an empty list. -/
def largest [Max α] (d : α) : List α → α
  | [] => d
  | x :: xs => xs.foldl max x

/-- Sums lists of values place by place, wrapping, to the length of the longest. -/
def sumPlaces (xss : List (List Int64)) : List Int64 :=
  let n := largest 0 (xss.map List.length)
  xss.foldl (fun acc xs => acc.zipIdx.map fun (a, i) => a + xs.getD i 0) (List.replicate n 0)

/-- The merged stream of all shards over fields. The stream claims of the shards and the
merge's own claim stay in the pool; the second component is their sum, to be released when
the stream is done. -/
def stream (fields : List Field) : Step MultiSession (Merger ShardStream × UInt64) := do
  let streams ← execute (ShardSession.stream fields) (·.claimed)
  let held := streams.foldl (fun n s => n + s.claimed) 0
  let ng := largest 1 (streams.map (·.lookup.numGroups))
  let ns := (streams.head?.map (·.columns.length)).getD 0
  let bytes := Merger.memoryFor ng ns
  let m ← get
  match m.pool.claim bytes with
  | .error e => set { m with pool := m.pool.release held }; throw e
  | .ok pool =>
    match Merger.create streams with
    | .error e => set { m with pool := m.pool.release held }; throw e
    | .ok merger =>
      set { m with pool }
      pure ({ merger with claimed := bytes }, held + bytes)

/-- Gives back bytes a stream held. -/
def release (bytes : UInt64) : Step MultiSession Unit :=
  modify fun m => { m with pool := m.pool.release bytes }

/-- Counts, per group, the terms of a field on the merged stream. -/
def distinct (f : Field) : Step MultiSession (List Int64) := do
  let (merger, held) ← stream [f]
  let (r, _) := Cursor.collect.apply merger
  release held
  let blocks ← match r with
    | .ok b => pure b
    | .error e => throw e
  let counts := blocks.foldl (fun c fb => fb.terms.foldl (fun c tb => tb.groups.foldl
    (fun c g => c.modify g.group.toNat (· + 1)) c) c) (Array.replicate merger.numGroups.toNat 0)
  pure counts.toList

/-- Serves a request on every shard and combines the answers. -/
def serve : Request → Step MultiSession Reply
  | .regroup r => do
    let ns ← execute (do let _ ← ShardSession.regroup r; pure (← get).1.lookup.numGroups)
    pure (.bound (largest 1 ns))
  | .pushStat metric => do pure (.depth (largest 0 (← execute (ShardSession.pushStat metric))))
  | .popStat => do pure (.depth (largest 0 (← execute ShardSession.popStat)))
  | .groupStats i => do pure (.values (sumPlaces (← execute (ShardSession.groupStats i))))
  | .totalDocFreq fs => do
    let fs ← execute (ShardSession.totalDocFreq fs)
    pure (.docFreq (fs.foldl (fun a b => if a + b < a then 18446744073709551615 else a + b) 0))
  | .distinct f => .values <$> distinct f
  | .close => close *> pure .done

end MultiSession

end GroupStats
