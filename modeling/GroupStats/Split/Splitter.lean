import GroupStats.Split.Index
import GroupStats.Split.Spill
import GroupStats.Wire.Writer
import GroupStats.Wire.Reader

/-!
# Splitting a stream

A `Splitter` fans one stream out into `K` streams. Every field switch goes to all outputs;
each term, with all of its groups and stats, goes to the one output its split index names.
After a clean run every output is closed; after a failure every output is aborted. The input
is closed either way, and a spill budget that ran out is reported as exceeded capacity.
-/

namespace GroupStats

/-- Routes the terms of a stream by their split index under a prime. -/
structure Splitter where
  prime : Int32
  deriving DecidableEq, Repr

namespace Splitter

/-- The splitter with the default prime. -/
def standard : Splitter := ⟨Split.defaultPrime⟩

/-- The split a term goes to among `k`. -/
def index (s : Splitter) (t : Term) (k : Nat) : Nat := Split.index s.prime t k

/-- A stream being split: the input, one writer per output, and the state of the sinks. -/
structure Fanout (τ σ : Type) where
  input : τ
  writers : List Wire.Writer
  sinks : σ

variable {τ σ : Type} [Cursor τ]

/-- A split of `input` into `k` writers over the given sinks. -/
def Fanout.create (input : τ) (k : Nat) (sinks : σ) : Fanout τ σ :=
  { input, sinks, writers := List.replicate k (Wire.Writer.create (Cursor.numStats input)) }

/-- Runs a step of the input. -/
def onInput (x : Step τ α) : Step (Fanout τ σ) α :=
  Step.focus Fanout.input (fun f i => { f with input := i }) x

/-- Runs a step of writer `i` with its sink. -/
def onWriter (i : Nat) (x : Step (Wire.Writer × σ) Unit) : Step (Fanout τ σ) Unit :=
  Step.ofFn fun f =>
    match f.writers[i]? with
    | none => (.ok (), f)
    | some w =>
      let (r, w', sinks) := x.apply (w, f.sinks)
      (r, { f with writers := f.writers.set i w', sinks })

variable (outlet : Nat → Outlet σ)

/-- Copies the groups left in the current term to writer `i`, at most `fuel` of them. -/
def copyGroups (i : Nat) : Nat → Step (Fanout τ σ) Unit
  | 0 => pure ()
  | fuel + 1 => do
    if ← onInput Cursor.nextGroup then
      let c := (← get).input
      onWriter i (Wire.Writer.writeGroup (outlet i) (Cursor.group c) (Cursor.stats c))
      copyGroups i fuel

/-- Copies the current term with its groups to writer `i`. -/
def copyTerm (i : Nat) (fuel : Nat) : Step (Fanout τ σ) Unit := do
  let c := (← get).input
  onWriter i (Wire.Writer.switchTerm (outlet i) (Cursor.term c) (Cursor.docFreq c))
  copyGroups outlet i fuel

/-- Routes the terms left in the current field, at most `fuel` of them. -/
def routeTerms (s : Splitter) (k fuel : Nat) : Nat → Step (Fanout τ σ) Unit
  | 0 => pure ()
  | n + 1 => do
    if ← onInput Cursor.nextTerm then
      copyTerm outlet (s.index (Cursor.term (← get).input) k) fuel
      routeTerms s k fuel n

/-- Routes the fields left in the stream, at most `fuel` of each level. -/
def routeFields (s : Splitter) (k fuel : Nat) : Nat → Step (Fanout τ σ) Unit
  | 0 => pure ()
  | n + 1 => do
    if ← onInput Cursor.nextField then
      let f := Cursor.field (← get).input
      for i in List.range k do
        onWriter i (Wire.Writer.switchField (outlet i) f)
      routeTerms outlet s k fuel fuel
      routeFields s k fuel n

/-- The first failure of a list of outcomes. -/
def firstFailure : List (Except Error Unit) → Option Error
  | [] => none
  | .error e :: _ => some e
  | .ok _ :: rest => firstFailure rest

/-- Splits the input into the fan-out's writers. -/
def run (s : Splitter) : Step (Fanout τ σ) Unit := do
  let k := (← get).writers.length
  if k = 0 then
    let _ ← Step.attempt (onInput Cursor.close)
    throw (.invalidArgument .noSplitOutputs)
  let fuel := Cursor.budget (← get).input + 1
  let routed ← Step.attempt (routeFields outlet s k fuel fuel)
  let failure ← match routed with
    | .ok () => do
      let closed ← (List.range k).mapM fun i =>
        Step.attempt (onWriter i (Wire.Writer.close (outlet i)))
      pure (firstFailure closed)
    | .error e => do
      for i in List.range k do
        let _ ← Step.attempt (onWriter i (Wire.Writer.abort (outlet i)))
      pure (some e)
  let _ ← Step.attempt (onInput Cursor.close)
  match failure with
  | some e => throw e.classify
  | none => pure ()

/-- Splits the input into `k` spill buffers, charged to a shared budget when one is given;
gives what the split left in the buffers. -/
def spill (s : Splitter) (input : τ) (k : Nat) (budget : Option UInt64) :
    Except Error Unit × Fanout τ SpillArea :=
  (run SpillArea.outlet s).apply (Fanout.create input k (SpillArea.create k budget))

/-- Splits the input into `k` spill buffers and gives a reader over each. -/
def inMemory (s : Splitter) (input : τ) (k : Nat) (budget : Option UInt64) :
    Except Error (List Wire.Reader) :=
  let (r, f) := s.spill input k budget
  r.map fun _ => (List.range k).map fun i =>
    Wire.Reader.ofBytes (f.sinks.data i) (Cursor.numStats input) (Cursor.numGroups input)

end Splitter

end GroupStats
