import GroupStats.Config.Toml.Write
import GroupStats.Error

/-!
# Settings

The settings of the engine come in four sections: splitting, memory, the executor and
monitoring. Each setting has a default, used when its section or the setting itself is
missing from a settings file; a setting of the wrong kind or out of its range makes the
file unreadable. Environment variables named `FTGS_*` override single settings when their
text parses, and are ignored otherwise.

Validation checks the settings in a fixed order and reports the first that cannot be used.
The number of worker threads defaults to what the machine offers, which this library does not
know: it stays unset until a file, the environment or the caller gives it.
-/

namespace GroupStats

/-- How the split of a stream is made. -/
structure SplitSettings where
  largePrime : Int32 := 2147483629
  numSplits : Nat := 16
  /-- The byte budget shared by the spill buffers of one split; zero for none. -/
  spillBudget : UInt64 := 0
  deriving DecidableEq, Repr

/-- The byte budget of the engine. -/
structure MemorySettings where
  ceiling : UInt64 := 8589934592
  /-- The fixed claim of every multi-session. -/
  multiClaim : UInt64 := 0
  deriving DecidableEq, Repr

/-- The worker pool and the per-term batches. -/
structure ExecutorSettings where
  /-- The worker thread count; unset means what the machine offers. -/
  workers : Option Nat := none
  batch : Nat := 4096
  initialGroup : UInt32 := 1
  deriving DecidableEq, Repr

/-- Logging and metrics. -/
structure MonitoringSettings where
  logLevel : String := "info"
  metricsEnabled : Bool := true
  deriving DecidableEq, Repr

/-- The settings of the engine. -/
structure Config where
  split : SplitSettings := {}
  memory : MemorySettings := {}
  executor : ExecutorSettings := {}
  monitoring : MonitoringSettings := {}
  deriving DecidableEq, Repr

/-- The verbosity of logging. -/
inductive LogLevel where
  | off
  | error
  | warn
  | info
  | debug
  | trace
  deriving DecidableEq, Repr

namespace LogLevel

/-- The lower-case name of a level. -/
def name : LogLevel → String
  | .off => "off"
  | .error => "error"
  | .warn => "warn"
  | .info => "info"
  | .debug => "debug"
  | .trace => "trace"

/-- Reads a whole unsigned decimal number, with an optional plus sign. -/
def natOf? (s : String) : Option Nat :=
  let ds := match s.toList with
    | '+' :: r => r
    | r => r
  if !ds.isEmpty && ds.all Char.isDigit then
    some (ds.foldl (fun n c => 10 * n + (c.toNat - '0'.toNat)) 0)
  else none

/-- Reads a level: a number from 0 (off) to 5 (trace), else a name in any case; the empty
text is the error level. -/
def parse? (s : String) : Option LogLevel :=
  let byNumber := match natOf? s with
    | some 0 => some LogLevel.off
    | some 1 => some .error
    | some 2 => some .warn
    | some 3 => some .info
    | some 4 => some .debug
    | some 5 => some .trace
    | _ => none
  match byNumber with
  | some l => some l
  | none =>
    let t := s.toLower
    if s.isEmpty then some .error
    else [LogLevel.error, .warn, .info, .debug, .trace, .off].find? (·.name == t)

end LogLevel

namespace Config

/-! ### Reading a settings file -/

/-- A signed 32-bit setting. -/
def int32? : Toml.Value → Option Int32
  | .int i => if -2147483648 ≤ i ∧ i < 2147483648 then some (Int32.ofInt i) else none
  | _ => none

/-- An unsigned setting of `bits` bits. -/
def unsigned? (bits : Nat) : Toml.Value → Option Nat
  | .int i => if 0 ≤ i ∧ i < Int.pow 2 bits then some i.toNat else none
  | _ => none

/-- A text setting. -/
def text? : Toml.Value → Option String
  | .str s => some s
  | _ => none

/-- A boolean setting. -/
def flag? : Toml.Value → Option Bool
  | .bool b => some b
  | _ => none

/-- A section of a settings file. A table gives its settings by name; an array gives them
by position, in the order the section declares them, and may stop early or run past the
last. -/
inductive Section where
  | named (t : Toml.Table)
  | positional (items : List Toml.Value)

/-- A section of a settings file: empty when missing, `none` when neither a table nor an
array. -/
def section? (t : Toml.Table) (k : String) : Option Section :=
  match t.find? (·.1 == k) with
  | none => some (.named [])
  | some (_, .table _ s) => some (.named s)
  | some (_, .array items) => some (.positional items)
  | some _ => none

/-- The setting named `k`, declared `i`-th, of a section: its default when missing, `none`
when it cannot be read. -/
def setting (s : Section) (k : String) (i : Nat) (read : Toml.Value → Option α) (d : α) :
    Option α :=
  let v := match s with
    | .named t => (t.find? (·.1 == k)).map (·.2)
    | .positional items => items[i]?
  match v with
  | none => some d
  | some v => read v

/-- The settings of a parsed file; `none` when a setting has the wrong kind or range. -/
def ofTable (t : Toml.Table) : Option Config := do
  let s ← section? t "split"
  let m ← section? t "memory"
  let e ← section? t "executor"
  let o ← section? t "monitoring"
  let d : Config := {}
  pure {
    split := {
      largePrime := ← setting s "large_prime" 0 int32? d.split.largePrime
      numSplits := ← setting s "num_splits" 1 (unsigned? 64) d.split.numSplits
      spillBudget := ← setting s "spill_budget_bytes" 2 (fun v => (·.toUInt64) <$> unsigned? 64 v)
        d.split.spillBudget }
    memory := {
      ceiling := ← setting m "ceiling_bytes" 0 (fun v => (·.toUInt64) <$> unsigned? 64 v) d.memory.ceiling
      multiClaim := ← setting m "multi_session_claim_bytes" 1 (fun v => (·.toUInt64) <$> unsigned? 64 v)
        d.memory.multiClaim }
    executor := {
      workers := ← setting e "worker_threads" 0 (fun v => some <$> unsigned? 64 v) none
      batch := ← setting e "doc_batch_size" 1 (unsigned? 64) d.executor.batch
      initialGroup := ← setting e "initial_group" 2 (fun v => (·.toUInt32) <$> unsigned? 32 v)
        d.executor.initialGroup }
    monitoring := {
      logLevel := ← setting o "log_level" 0 text? d.monitoring.logLevel
      metricsEnabled := ← setting o "metrics_enabled" 1 flag? d.monitoring.metricsEnabled } }

/-- The settings of a settings text; `none` when it is not TOML or a setting is unreadable. -/
def read (text : String) : Option Config := Toml.parse text >>= ofTable

/-- Whether a settings text mentions the worker count anywhere, even in a comment. A file is
taken to state its count when it does; a count given only by position is not mentioned. -/
def namesWorkers (text : String) : Bool := text.contains "worker_threads"

/-- Whether a settings table names the worker count: its executor section is a table with a
`worker_threads` key, however the key is quoted. -/
def tableNamesWorkers (t : Toml.Table) : Bool :=
  match section? t "executor" with
  | some (.named s) => s.any (·.1 == "worker_threads")
  | _ => false

/-- The worker count of the settings of a text, when its table names the count. -/
def statedWorkers (text : String) (c : Config) : Option Nat :=
  match Toml.parse text with
  | some t => if tableNamesWorkers t then c.executor.workers else none
  | none => none

/-! ### The environment -/

/-- Reads a whole signed decimal number with an optional sign. -/
def intOf? (s : String) : Option Int :=
  match s.toList with
  | '-' :: r => (LogLevel.natOf? (String.ofList r)).bind fun n =>
      if r.head? == some '+' then none else some (-(n : Int))
  | _ => (LogLevel.natOf? s).map Int.ofNat

/-- Applies one override when its text parses. -/
def overrideWith (env : List (String × String)) (k : String) (read : String → Option α)
    (apply : α → Config → Config) (c : Config) : Config :=
  match (env.find? (·.1 == k)).bind (read ·.2) with
  | some v => apply v c
  | none => c

/-- Reads a whole unsigned 64-bit decimal number. -/
def count? (s : String) : Option Nat :=
  (LogLevel.natOf? s).bind fun n => if n < Nat.pow 2 64 then some n else none

/-- The worker count an environment sets, when it sets a readable one. -/
def envWorkers? (env : List (String × String)) : Option Nat :=
  (env.find? (·.1 == "FTGS_WORKER_THREADS")).bind (count? ·.2)

/-- Applies the `FTGS_*` overrides of an environment. -/
def withEnv (env : List (String × String)) (c : Config) : Config :=
  let i32 (s : String) : Option Int32 := (intOf? s).bind fun i =>
    if -2147483648 ≤ i ∧ i < 2147483648 then some (Int32.ofInt i) else none
  let u64 := count?
  let bool (s : String) : Option Bool :=
    if s = "true" then some true else if s = "false" then some false else none
  c |> overrideWith env "FTGS_LARGE_PRIME" i32 (fun p c => { c with split.largePrime := p })
    |> overrideWith env "FTGS_NUM_SPLITS" u64 (fun n c => { c with split.numSplits := n })
    |> overrideWith env "FTGS_MEMORY_CEILING" u64 (fun n c => { c with memory.ceiling := n.toUInt64 })
    |> overrideWith env "FTGS_WORKER_THREADS" u64 (fun n c => { c with executor.workers := some n })
    |> overrideWith env "FTGS_LOG_LEVEL" some (fun l c => { c with monitoring.logLevel := l })
    |> overrideWith env "FTGS_METRICS_ENABLED" bool (fun b c => { c with monitoring.metricsEnabled := b })

/-! ### Validation -/

/-- The logging level the settings name. -/
def levelFilter (c : Config) : Except Error LogLevel :=
  match LogLevel.parse? c.monitoring.logLevel with
  | some l => .ok l
  | none => .error (.configuration (.logLevel c.monitoring.logLevel))

/-- Checks the settings in order and reports the first that cannot be used. -/
def validate (c : Config) : Except Error Unit := do
  let fail (f : ConfigFault) : Except Error Unit := .error (.configuration f)
  if c.split.largePrime ≤ 1 then fail .largePrime
  else if c.split.numSplits = 0 then fail .numSplits
  else if c.memory.ceiling = 0 then fail .ceiling
  else if c.memory.multiClaim > c.memory.ceiling then fail .claimAboveCeiling
  else if c.executor.workers = some 0 then fail .workers
  else if c.executor.batch = 0 then fail .batchSize
  else if c.executor.initialGroup = 0 then fail .initialGroup
  else (fun _ => ()) <$> c.levelFilter

/-- The spill budget a split uses, if any. -/
def spillBudget? (c : Config) : Option UInt64 :=
  if c.split.spillBudget > 0 then some c.split.spillBudget else none

/-! ### Writing a settings file -/

/-- The settings by section, in file order. An unset worker count is left out. -/
def sections (c : Config) : List (String × Toml.Table) :=
  [("split", [("large_prime", .int c.split.largePrime.toInt), ("num_splits", .int c.split.numSplits),
      ("spill_budget_bytes", .int c.split.spillBudget.toNat)]),
    ("memory", [("ceiling_bytes", .int c.memory.ceiling.toNat),
      ("multi_session_claim_bytes", .int c.memory.multiClaim.toNat)]),
    ("executor", (c.executor.workers.toList.map fun n => ("worker_threads", .int n)) ++
      [("doc_batch_size", .int c.executor.batch), ("initial_group", .int c.executor.initialGroup.toNat)]),
    ("monitoring", [("log_level", .str c.monitoring.logLevel),
      ("metrics_enabled", .bool c.monitoring.metricsEnabled)])]

/-- The settings as a TOML document; fails when a count does not fit a TOML integer. -/
def render (c : Config) : Except Error String :=
  match Toml.render c.sections with
  | some text => .ok text
  | none => .error (.configuration (.notRepresentable "u64"))

end Config

end GroupStats
