import GroupStats.Wire.Record
import GroupStats.Wire.Sink

/-!
# Stream writer

A `Writer` encodes a stream into a sink. Records collect in a buffer that is drained into the
sink when a record brings it to 64 KiB or more, and on `flush` and `close`; `abort` drops it.
Draining empties the buffer even when the sink refuses the bytes. A closed writer refuses
every record.

The writer runs on a pair of its own state and the sink's, so that several writers can share
one sink state, as the outputs of a split share a spill budget.
-/

namespace GroupStats

namespace Wire

/-- Buffered bytes are drained once they reach this many. -/
def drainThreshold : Nat := 64 * 1024

/-- The state of a stream writer. -/
structure Writer where
  numStats : Nat
  /-- The buffered records, newest first. -/
  chunks : List Bytes := []
  /-- The number of buffered bytes. -/
  buffered : Nat := 0
  closed : Bool := false
  deriving Repr

namespace Writer

/-- A fresh writer for groups of `numStats` stats. -/
def create (numStats : Nat) : Writer := { numStats }

/-- The buffered bytes, oldest first. -/
def buffer (w : Writer) : Bytes := w.chunks.reverse.flatten

variable {σ : Type}

/-- Runs a sink operation inside a writer step. -/
def toSink (x : Step σ α) : Step (Writer × σ) α :=
  Step.focus Prod.snd (fun p s => (p.1, s)) x

/-- Fails on a closed writer. -/
def checkOpen : Step (Writer × σ) Unit := do
  if (← get).1.closed then throw (.closed .writer)

/-- Hands the buffer to the sink, leaving it empty whatever the sink answers. -/
def drain (outlet : Outlet σ) : Step (Writer × σ) Unit := do
  let (w, s) ← get
  if w.buffered = 0 then return
  set ({ w with chunks := [], buffered := 0 }, s)
  toSink (outlet.write w.buffer)

/-- Buffers one record and drains when the buffer reaches the threshold. -/
def push (outlet : Outlet σ) (r : Record) : Step (Writer × σ) Unit := do
  checkOpen
  let data := r.encode
  modify fun (w, s) => ({ w with chunks := data :: w.chunks, buffered := w.buffered + data.length }, s)
  if (← get).1.buffered ≥ drainThreshold then drain outlet

/-- Starts a field. -/
def switchField (outlet : Outlet σ) (f : Field) : Step (Writer × σ) Unit :=
  push outlet (.field f)

/-- Starts an integer term. -/
def switchIntTerm (outlet : Outlet σ) (t : Int64) (docFreq : UInt64) : Step (Writer × σ) Unit :=
  push outlet (.intTerm t docFreq)

/-- Starts a byte term. -/
def switchBytesTerm (outlet : Outlet σ) (b : Bytes) (docFreq : UInt64) : Step (Writer × σ) Unit :=
  push outlet (.bytesTerm b docFreq)

/-- Starts a term of either kind. -/
def switchTerm (outlet : Outlet σ) (t : Term) (docFreq : UInt64) : Step (Writer × σ) Unit :=
  push outlet (.term t docFreq)

/-- Writes one group of the current term; it must carry the writer's stat count. -/
def writeGroup (outlet : Outlet σ) (g : GroupId) (stats : List Int64) : Step (Writer × σ) Unit := do
  checkOpen
  let n := (← get).1.numStats
  if stats.length ≠ n then throw (.invalidArgument (.statCount g stats.length n))
  push outlet (.group g stats)

/-- Drains the buffer and flushes the sink. -/
def flush (outlet : Outlet σ) : Step (Writer × σ) Unit := do
  drain outlet
  toSink outlet.flush

/-- Drains the buffer and ends the sink; the first failure of the two is reported. Closing
again does nothing. -/
def close (outlet : Outlet σ) : Step (Writer × σ) Unit := do
  if (← get).1.closed then return
  modify fun (w, s) => ({ w with closed := true }, s)
  let drained ← Step.attempt (drain outlet)
  let ended ← Step.attempt (toSink outlet.close)
  match drained, ended with
  | .error e, _ => throw e
  | .ok _, .error e => throw e
  | .ok _, .ok _ => pure ()

/-- Ends the sink and drops the buffer. Aborting a closed writer does nothing. -/
def abort (outlet : Outlet σ) : Step (Writer × σ) Unit := do
  if (← get).1.closed then return
  modify fun (w, s) => ({ w with closed := true, chunks := [], buffered := 0 }, s)
  toSink outlet.close

/-- A step of a writer's user. -/
inductive Command where
  | field (f : Field)
  | intTerm (t : Int64) (docFreq : UInt64)
  | bytesTerm (b : Bytes) (docFreq : UInt64)
  | term (t : Term) (docFreq : UInt64)
  | group (g : GroupId) (stats : List Int64)
  | flush
  | close
  | abort

/-- Runs one command. -/
def run (outlet : Outlet σ) : Command → Step (Writer × σ) Unit
  | .field f => switchField outlet f
  | .intTerm t df => switchIntTerm outlet t df
  | .bytesTerm b df => switchBytesTerm outlet b df
  | .term t df => switchTerm outlet t df
  | .group g stats => writeGroup outlet g stats
  | .flush => flush outlet
  | .close => close outlet
  | .abort => abort outlet

end Writer

end Wire

end GroupStats
