import GroupStats.Error

/-!
# The split rendezvous, thread by thread

The rendezvous table of a multi-session is shared by the parties of a round and by `close`. A
registration checks the closed flag and its split index without the table's lock, then fills
its slot under the lock: the first party of a round lays out the slots and fields, the later
ones must match them, and the party that fills the last slot takes the round's outputs and
re-arms the table for the next round. `close` may set the flag between a party's check and its
locked section, so the locked section reads the flag again and, finding it set, sweeps the
table itself and answers that the multi-session is closed. `close` sets the flag, then sweeps the table under the lock: it closes the
outputs registered so far and finishes the round as closed. The party holding a round's
outputs runs it and publishes the outcome; a failed round closes the multi-session.

Each of these sections is one atomic step of one thread, so a run of the rendezvous is any
interleaving of them. Threads are numbered, and an output is named by the thread that hands it
over.
-/

namespace GroupStats

namespace Interleaved

/-- What a registration asks: the fields of the round, its split index and the split count. -/
structure Request where
  fields : List Field
  index : Nat
  count : Nat
  deriving DecidableEq, Repr

/-- The program of a thread: a registration of its output for a split, or a close. -/
inductive Program where
  | register (q : Request)
  | close
  deriving DecidableEq, Repr

/-- How a round ended. -/
inductive Outcome where
  | completed
  | failed (message : String)
  | closed
  deriving DecidableEq, Repr

/-- Where a thread stands in its program. -/
inductive Pc where
  /-- A registration before its unlocked check. -/
  | start
  /-- A registration past its unlocked check, before its locked section. -/
  | checked
  /-- A registration waiting for the outcome of a round. -/
  | waiting (round : Nat)
  /-- A registration holding the outputs of a round, before it runs the round. -/
  | running (round : Nat) (outputs : List Nat) (fields : List Field)
  /-- A close before it sets the flag. -/
  | closing
  /-- A close that set the flag, before it sweeps the table. -/
  | sweeping
  | done
  deriving DecidableEq, Repr

/-- The outputs of a round, handed to the party that runs it. -/
structure Batch where
  round : Nat
  runner : Nat
  outputs : List Nat
  fields : List Field
  deriving DecidableEq, Repr

/-- The shared state: the closed flag, the table of the round gathering parties, the outcome
of every round, and where every output and thread is. -/
structure World where
  requests : Nat → Option Request
  pc : Nat → Pc
  closed : Bool := false
  round : Nat := 0
  slots : List (Option Nat) := []
  fields : List Field := []
  arrived : Nat := 0
  outcome : Nat → Option Outcome := fun _ => none
  closedOutputs : List Nat := []
  batches : List Batch := []
  /-- The error each registration refused before it joins a round answers its caller. -/
  refusals : Nat → Option Error := fun _ => none

namespace World

/-- The world in which thread `i` runs the `i`-th program, before any step. -/
def init (ps : List Program) : World where
  requests i := match ps[i]? with
    | some (.register q) => some q
    | _ => none
  pc i := match ps[i]? with
    | some (.register _) => .start
    | some .close => .closing
    | none => .done

/-- Moves a thread on. -/
def moveTo (w : World) (p : Nat) (c : Pc) : World :=
  { w with pc := fun p' => if p' = p then c else w.pc p' }

/-- The outputs registered in the table, in slot order. -/
def registered (w : World) : List Nat := w.slots.filterMap id

/-- A fresh round with an empty table. -/
def rearm (w : World) : World :=
  { w with round := w.round + 1, slots := [], fields := [], arrived := 0 }

/-- Publishes the outcome of a round; only the first outcome of a round counts. -/
def finish (w : World) (r : Nat) (o : Outcome) : World :=
  { w with outcome := fun r' => if r' = r ∧ w.outcome r' = none then some o else w.outcome r' }

/-- Closes the outputs registered so far, finishes the round as closed, and re-arms the
table. -/
def sweep (w : World) : World :=
  ({ w with closedOutputs := w.closedOutputs ++ w.registered }.finish w.round .closed).rearm

/-- Answers the registration of thread `p` with the error `e`. -/
def answer (w : World) (p : Nat) (e : Error) : World :=
  { w with refusals := fun p' => if p' = p then some e else w.refusals p' }

/-- Refuses a registration with an error: its output is closed and its thread is done. -/
def reject (w : World) (p : Nat) (e : Error) : World :=
  ({ w with closedOutputs := w.closedOutputs ++ [p] }.answer p e).moveTo p .done

/-- The table with thread `p` registered for split `q.index` of `q.count`: the first party
of a round lays out the slots and the fields. -/
def fill (w : World) (p : Nat) (q : Request) : World :=
  { w with
    slots := (if w.arrived = 0 then List.replicate q.count none else w.slots).set q.index (some p)
    fields := if w.arrived = 0 then q.fields else w.fields
    arrived := w.arrived + 1 }

/-- The locked section of the registration of thread `p`. -/
def lock (w : World) (p : Nat) (q : Request) : World :=
  if w.arrived ≠ 0 ∧ (w.slots.length ≠ q.count ∨ w.fields ≠ q.fields) then
    w.reject p (.invalidArgument (.roundMismatch q.index q.count))
  else if w.arrived ≠ 0 ∧ (w.slots.getD q.index none).isSome then
    w.reject p (.invalidArgument (.registeredTwice q.index))
  else
    let t := w.fill p q
    -- a close set the flag after this party's check: sweep the table, this output included
    if w.closed then (t.sweep.answer p (.closed .multiSession)).moveTo p .done
    else if t.arrived < q.count then t.moveTo p (.waiting w.round)
    else
      let b : Batch := ⟨w.round, p, t.registered, t.fields⟩
      { t.rearm with batches := w.batches ++ [b] }.moveTo p (.running w.round b.outputs b.fields)

end World

/-- One atomic section of one thread. -/
inductive Action where
  /-- A registration's unlocked check of the flag and the split index. -/
  | check (p : Nat)
  /-- A registration's locked section. -/
  | lock (p : Nat)
  /-- A close setting the flag. -/
  | setFlag (p : Nat)
  /-- A close sweeping the table under the lock. -/
  | sweep (p : Nat)
  /-- The party holding a round's outputs running it, with the aggregation's result. -/
  | run (p : Nat) (result : Except String Unit)
  /-- A waiting party seeing its round's outcome. -/
  | wake (p : Nat)

namespace World

/-- The world after an action, or nothing when the thread cannot take it. -/
def step (w : World) : Action → Option World
  | .check p => match w.requests p, w.pc p with
    | some q, .start =>
      some (if w.closed then w.reject p (.closed .multiSession)
        else if q.count = 0 ∨ q.count ≤ q.index then
          w.reject p (.invalidArgument (.splitIndex q.index q.count))
        else w.moveTo p .checked)
    | _, _ => none
  | .lock p => match w.requests p, w.pc p with
    | some q, .checked => some (w.lock p q)
    | _, _ => none
  | .setFlag p => match w.pc p with
    | .closing => some (if w.closed then w.moveTo p .done else { w with closed := true }.moveTo p .sweeping)
    | _ => none
  | .sweep p => match w.pc p with
    | .sweeping => some (w.sweep.moveTo p .done)
    | _ => none
  | .run p res => match w.pc p with
    | .running r _ _ => some (match res with
      | .ok () => (w.finish r .completed).moveTo p .done
      | .error m => (w.finish r (.failed m)).moveTo p .closing)
    | _ => none
  | .wake p => match w.pc p with
    | .waiting r => if (w.outcome r).isSome then some (w.moveTo p .done) else none
    | _ => none

/-- The worlds some interleaving of the programs' steps reaches. -/
inductive Reachable : World → Prop
  | init (ps : List Program) : Reachable (init ps)
  | step {w w' : World} (a : Action) : Reachable w → w.step a = some w' → Reachable w'

end World

end Interleaved

end GroupStats
