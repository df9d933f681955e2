import GroupStats.Session.Multi
import GroupStats.Session.Snapshot

/-!
# Split rendezvous

A distributed request asks for all `k` splits of one stream, one party per split. Each party
registers its split in the round's table and waits; the party that fills the last slot empties
the table and runs the round once for all of them. Its outcome is every party's answer: the
party that ran it gets the outcome itself, a waiting party gets a failure as an aggregation
error.

A registration is refused, and its output closed empty, when the multi-session is closed, the
split index lies outside `[0, k)`, the split count or the fields differ from the round in
progress, or the split is already registered. A failed round closes the multi-session; closing
sends every waiting party the closed error.
-/

namespace GroupStats

namespace MultiSession

/-- What a registration leads to: waiting for the round, or running it. -/
inductive Arrival where
  | wait
  | run
  deriving DecidableEq, Repr

/-- Registers split `i` of `k` over fields in the round's table. -/
def register (fields : List Field) (i k : Nat) : Step MultiSession Arrival := do
  let m ← get
  if m.closed then throw (.closed .multiSession)
  if k = 0 ∨ k ≤ i then throw (.invalidArgument (.splitIndex i k))
  let t := m.table
  if !t.arrived.isEmpty then
    if t.numSplits ≠ k ∨ t.fields ≠ fields then throw (.invalidArgument (.roundMismatch i k))
    if t.arrived.contains i then throw (.invalidArgument (.registeredTwice i))
  let arrived := t.arrived ++ [i]
  if arrived.length < k then
    set { m with table := { numSplits := k, fields, arrived } }
    return .wait
  set { m with table := {} }
  return .run

/-- Runs the round over fields into `k` outputs; a failed round closes the multi-session. -/
def runRound (fields : List Field) (k : Nat) : Step MultiSession (Except Error Unit × List Bytes) := do
  let m ← get
  let (r, outputs) := Snapshot.aggregate m.shards m.pool fields ⟨m.prime⟩ k
  if r.toBool = false then
    let _ ← Step.attempt close
  pure (r, outputs)

/-- What a waiting party gets from the outcome of its round. -/
def waiterResult : Except Error Unit → Except Error Unit
  | .ok () => .ok ()
  | .error e => .error (.aggregation e)

/-- The answer of one party to a split request: its result and its output. -/
structure Party where
  result : Except Error Unit
  output : Bytes := []

/-- What one direct split request comes to: refused, waiting for the round, or running it
with its outcome and what every output received. -/
inductive Turn where
  | refused (e : Error)
  | waits
  | ran (outcome : Except Error Unit) (outputs : List Bytes)

/-- One direct split request: it registers, and runs the round if it fills the last slot. -/
def writeSplit (fields : List Field) (i k : Nat) : Step MultiSession Turn := do
  match ← Step.attempt (register fields i k) with
  | .error e => pure (.refused e)
  | .ok .wait => pure .waits
  | .ok .run =>
    let (r, outputs) ← runRound fields k
    pure (.ran r outputs)

/-- A whole round of `k` parties registering in split order: the last one runs the round and
the others get its outcome as waiting parties. -/
def splitAll (fields : List Field) (k : Nat) : Step MultiSession (List Party) := do
  let arrivals ← (List.range k).mapM fun i => do
    pure (i, ← Step.attempt (register fields i k))
  match arrivals.find? (fun (_, a) => match a with | .ok .run => true | _ => false) with
  | none =>
    pure (arrivals.map fun (_, a) => match a with
      | .error e => ⟨.error e, []⟩
      | .ok _ => ⟨.error (.closed .multiSession), []⟩)
  | some (runner, _) =>
    let (r, outputs) ← runRound fields k
    pure (arrivals.map fun (i, a) => match a with
      | .error e => ⟨.error e, []⟩
      | .ok _ => ⟨if i = runner then r else waiterResult r, outputs.getD i []⟩)

/-- Whether every party's answer agrees with the round's outcome: success for all, or the
same failure, seen directly by the party that ran the round and as an aggregation error by
those that waited. -/
def consistent (parties : List Party) : Bool :=
  match parties.getLast? with
  | none => true
  | some last => parties.all fun p => match p.result, last.result with
    | .ok (), .ok () => true
    | .error e, .error o => e.message == o.message || e.message == (Error.aggregation o).message
    | _, _ => false

end MultiSession

end GroupStats
