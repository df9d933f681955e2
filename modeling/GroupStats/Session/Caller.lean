import GroupStats.Session.Rendezvous

/-!
# Callers of a multi-session

What a caller does with a multi-session, one call after another: it serves requests, opens
merged streams and keeps them for as long as it likes, drops them, and takes part in split
rounds. A merged stream holds its claims in the session's pool until it is dropped, so the
caller keeps, for every stream it holds, the bytes that dropping it gives back.
-/

namespace GroupStats

namespace MultiSession

/-- One call on a multi-session. -/
inductive Use where
  /-- A request served on every shard. -/
  | serve (r : Request)
  /-- Opens the merged stream of all shards over fields and keeps it. -/
  | openStream (fields : List Field)
  /-- Drops the `i`-th stream kept, giving back its claims. -/
  | dropStream (i : Nat)
  /-- One direct split request for split `i` of `k`. -/
  | writeSplit (fields : List Field) (i k : Nat)
  /-- A whole round of `k` parties registering in split order. -/
  | splitAll (fields : List Field) (k : Nat)

/-- A multi-session with the claims of the merged streams its caller holds. -/
structure Caller where
  session : MultiSession
  streams : List UInt64 := []

namespace Caller

/-- The caller after one call. -/
def step (c : Caller) : Use → Caller
  | .serve r => { c with session := ((serve r).apply c.session).2 }
  | .openStream fields =>
    match (stream fields).apply c.session with
    | (.ok (_, held), m) => { session := m, streams := c.streams ++ [held] }
    | (.error _, m) => { c with session := m }
  | .dropStream i =>
    match c.streams[i]? with
    | some held => { session := ((release held).apply c.session).2, streams := c.streams.eraseIdx i }
    | none => c
  | .writeSplit fields i k => { c with session := ((writeSplit fields i k).apply c.session).2 }
  | .splitAll fields k => { c with session := ((splitAll fields k).apply c.session).2 }

/-- The caller after a sequence of calls. -/
def run (c : Caller) (us : List Use) : Caller := us.foldl step c

end Caller

end MultiSession

end GroupStats
