import GroupStats.Wire.Sink

/-!
# Spill buffers

The outputs of a split that is read back locally are spilled into buffers in memory. The
buffers of one split share a byte budget: a write is charged in full or not at all, and a
write the budget cannot cover fails and leaves buffer and budget as they were.
-/

namespace GroupStats

/-- A byte budget: its limit and what is left of it. -/
structure SpillBudget where
  limit : UInt64
  remaining : UInt64
  deriving DecidableEq, Repr

namespace SpillBudget

/-- A full budget of `limit` bytes. -/
def create (limit : UInt64) : SpillBudget := ⟨limit, limit⟩

/-- Takes `n` bytes from the budget, or refuses and leaves it as it was. -/
def consume (b : SpillBudget) (n : Nat) : Option SpillBudget :=
  if n ≤ b.remaining.toNat then some { b with remaining := b.remaining - n.toUInt64 } else none

end SpillBudget

/-- One spill buffer: its bytes, and whether its writes are charged to the budget. -/
structure SpillBuffer where
  data : Bytes := []
  bounded : Bool
  deriving DecidableEq, Repr

/-- Spill buffers and the budget they share. -/
structure SpillArea where
  budget : SpillBudget
  buffers : List SpillBuffer := []
  deriving DecidableEq, Repr

namespace SpillArea

/-- `k` empty buffers; they are charged to the budget when one is given. -/
def create (k : Nat) (budget : Option UInt64) : SpillArea :=
  { budget := SpillBudget.create (budget.getD 0),
    buffers := List.replicate k { bounded := budget.isSome } }

/-- Adds an empty buffer and gives its index. -/
def addBuffer (a : SpillArea) (bounded : Bool) : SpillArea × Nat :=
  ({ a with buffers := a.buffers ++ [{ bounded }] }, a.buffers.length)

/-- Appends bytes to buffer `i`, charging the budget if the buffer is bounded. Writing
nothing charges nothing. -/
def write (i : Nat) (data : Bytes) : Step SpillArea Unit := do
  let a ← get
  if data.isEmpty then return
  match a.buffers[i]? with
  | none => return
  | some buf =>
    let budget ← if buf.bounded then
        match a.budget.consume data.length with
        | some b => pure b
        | none => throw (.io (.writeLimit a.budget.limit))
      else pure a.budget
    set { a with budget, buffers := a.buffers.set i { buf with data := buf.data ++ data } }

/-- The sink that writes into buffer `i`. -/
def outlet (i : Nat) : Outlet SpillArea where
  write := write i
  flush := pure ()
  close := pure ()

/-- The bytes of buffer `i`. -/
def data (a : SpillArea) (i : Nat) : Bytes := ((a.buffers[i]?).map (·.data)).getD []

/-- Takes the bytes of buffer `i`, leaving it empty. -/
def take (i : Nat) : Step SpillArea Bytes := do
  let a ← get
  match a.buffers[i]? with
  | none => return []
  | some buf =>
    set { a with buffers := a.buffers.set i { buf with data := [] } }
    return buf.data

/-- A step on spill buffers. -/
inductive Event where
  | consume (bytes : Nat)
  | addBuffer (bounded : Bool)
  | write (buffer : Nat) (data : Bytes)
  | take (buffer : Nat)

/-- What a step gives back. -/
inductive Outcome where
  | accepted (ok : Bool)
  | buffer (index : Nat)
  | written
  | taken (data : Bytes)
  deriving DecidableEq, Repr

/-- Runs one step; a write past the budget fails as exceeded capacity. -/
def step : Event → Step SpillArea Outcome
  | .consume n => do
    match (← get).budget.consume n with
    | some b => modify (fun a => { a with budget := b }); pure (.accepted true)
    | none => pure (.accepted false)
  | .addBuffer bounded => do
    let (a, i) := (← get).addBuffer bounded
    set a
    pure (.buffer i)
  | .write i data => Step.ofFn fun a =>
    let (r, a) := (write i data).apply a
    ((fun _ => .written) <$> r.mapError Error.classify, a)
  | .take i => .taken <$> take i

end SpillArea

end GroupStats
