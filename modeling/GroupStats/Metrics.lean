import GroupStats.Decimal.Text
/-!
# Metrics

The engine counts what it does: merged terms, routed split terms by outcome, regroups by
kind, aggregation rounds by outcome, failures to close a resource by resource, and memory
leaks; a gauge holds the bytes last claimed. Recording can be switched off, and then
records nothing.

The metrics are exported in the Prometheus text format: families in name order, each with a
`# HELP` and a `# TYPE` line and then one sample line per child, children in the order of
their label values. A labelled family with no child is left out.
-/

namespace GroupStats

/-- A counter, with its labels. -/
inductive Counter where
  | termsMerged
  | splitTerms (success : Bool)
  | regroups (kind : String)
  | rounds (success : Bool)
  | closeFailures (resource : String)
  | memoryLeaks
  deriving DecidableEq, Repr

namespace Counter

/-- The text of an outcome label. -/
def status (success : Bool) : String := if success then "success" else "error"

/-- The name of a counter with its label, as `family.label`. -/
def key : Counter → String
  | .termsMerged => "terms_merged"
  | .splitTerms s => "split_terms." ++ status s
  | .regroups kind => "regroups." ++ kind
  | .rounds s => "aggregation_rounds." ++ status s
  | .closeFailures r => "close_failures." ++ r
  | .memoryLeaks => "memory_leaks"

/-- The family of a counter, with its label name and this counter's label value when the
family is labelled. -/
def family : Counter → String × Option (String × String)
  | .termsMerged => ("ftgs_terms_merged_total", none)
  | .splitTerms s => ("ftgs_split_terms_total", some ("status", status s))
  | .regroups kind => ("ftgs_regroups_total", some ("kind", kind))
  | .rounds s => ("ftgs_aggregation_rounds_total", some ("status", status s))
  | .closeFailures r => ("ftgs_close_failures_total", some ("resource", r))
  | .memoryLeaks => ("ftgs_memory_leaks_total", none)

end Counter

/-- A metric family as exported: its name, its help text, whether it is a gauge rather than a
counter, and whether its children carry a label. -/
structure Family where
  name : String
  help : String
  gauge : Bool
  labelled : Bool

/-- The families the engine exports, in name order. -/
def families : List Family := [
  ⟨"ftgs_aggregation_rounds_total", "Barrier-synchronised aggregation rounds", false, true⟩,
  ⟨"ftgs_close_failures_total", "Failures observed while closing resources", false, true⟩,
  ⟨"ftgs_memory_claimed_bytes", "Bytes currently claimed from shared memory reservations", true,
    false⟩,
  ⟨"ftgs_memory_leaks_total", "Teardowns that found memory still claimed", false, false⟩,
  ⟨"ftgs_regroups_total", "Total regroup operations by kind", false, true⟩,
  ⟨"ftgs_split_terms_total", "Total terms routed to split outputs", false, true⟩,
  ⟨"ftgs_terms_merged_total", "Total terms emitted by k-way merges", false, false⟩]

/-- The names of the families the engine exports. -/
def metricFamilies : List String := families.map (·.name)

/-- A label value as the text format quotes it: backslash, double quote and line feed are
escaped. -/
def escapeLabel (v : String) : String :=
  String.join (v.toList.map fun c =>
    if c = '\\' then "\\\\" else if c = '"' then "\\\"" else if c = '\n' then "\\n"
    else c.toString)

/-- One sample line: the family name, the label if any, and the value. -/
def sampleLine (name : String) (label : Option (String × String)) (value : String) : String :=
  let labels := match label with
    | some (k, v) => "\x7b" ++ k ++ "=\"" ++ escapeLabel v ++ "\"\x7d"
    | none => ""
  name ++ labels ++ " " ++ value ++ "\n"

/-- The counts recorded so far, the claimed-bytes gauge and the recording switch. -/
structure Metrics where
  enabled : Bool := true
  counts : List (Counter × Nat) := []
  claimed : Float := 0
  deriving Repr

namespace Metrics

/-- The count of a counter. -/
def count (m : Metrics) (c : Counter) : Nat := ((m.counts.find? (·.1 == c)).map (·.2)).getD 0

/-- Counts one event, when recording is on. -/
def record (m : Metrics) (c : Counter) : Metrics :=
  if !m.enabled then m
  else if m.counts.any (·.1 == c) then
    { m with counts := m.counts.map fun (k, n) => if k == c then (k, n + 1) else (k, n) }
  else { m with counts := m.counts ++ [(c, 1)] }

/-- Sets the claimed-bytes gauge, when recording is on. -/
def setClaimed (m : Metrics) (bytes : Nat) : Metrics :=
  if m.enabled then { m with claimed := bytes.toFloat } else m

/-- The sample lines of a family. A counter family shows each child recorded, in the order of
its label values, and an unlabelled one always shows its single child; the gauge shows the
bytes last claimed. -/
def samples (m : Metrics) (f : Family) : List String :=
  if f.gauge then [sampleLine f.name none (Decimal.Style.plain.render m.claimed)]
  else
    let children := m.counts.filter fun (c, _) => c.family.1 == f.name
    if f.labelled then
      let sorted := children.mergeSort fun (a, _) (b, _) =>
        compare (a.family.2.map (·.2)) (b.family.2.map (·.2)) != .gt
      sorted.map fun (c, n) => sampleLine f.name c.family.2 (toString n)
    else [sampleLine f.name none (toString (((children.head?).map (·.2)).getD 0))]

/-- The metrics in the Prometheus text format. -/
def exposition (m : Metrics) : String :=
  String.join (families.map fun f =>
    match m.samples f with
    | [] => ""
    | lines =>
      "# HELP " ++ f.name ++ " " ++ f.help ++ "\n# TYPE " ++ f.name ++ " " ++
        (if f.gauge then "gauge" else "counter") ++ "\n" ++ String.join lines)

/-- Whether the exported text declares the type of a family named by `name`: it holds
`# TYPE` followed by the name and a space. The name may run on into the lines that follow. -/
def lists (m : Metrics) (name : String) : Bool :=
  m.exposition.contains ("# TYPE " ++ name ++ " ")

/-- The counts by counter key, in the order the counters were first recorded. -/
def deltas (m : Metrics) : List (String × Nat) := m.counts.map fun (c, n) => (c.key, n)

/-- A step on the metrics. -/
inductive Event where
  | setEnabled (on : Bool)
  | isEnabled
  | record (c : Counter)
  | claimed (bytes : Nat)
  | gather (names : List String)

/-- What a step gives back. -/
inductive Outcome where
  | done
  | flag (on : Bool)
  | gauge (value : Float)
  | listed (found : List Bool)

/-- Runs one step. -/
def step : Event → Metrics → Outcome × Metrics
  | .setEnabled on, m => (.done, { m with enabled := on })
  | .isEnabled, m => (.flag m.enabled, m)
  | .record c, m => (.done, m.record c)
  | .claimed bytes, m => let m := m.setClaimed bytes; (.gauge m.claimed, m)
  | .gather names, m => (.listed (names.map m.lists), m)

end Metrics

end GroupStats
