import GroupStats.Bytes
import GroupStats.Config.Basic
import GroupStats.Config.Store
import GroupStats.Config.Toml.Read
import GroupStats.Config.Toml.Scan
import GroupStats.Config.Toml.Write
import GroupStats.Core.Term
import GroupStats.Decimal.Shortest
import GroupStats.Decimal.Text
import GroupStats.Error
import GroupStats.Group.Bits
import GroupStats.Group.Buckets
import GroupStats.Group.Edit
import GroupStats.Group.Lookup
import GroupStats.Group.Regroup
import GroupStats.Group.Rules
import GroupStats.Group.StatStack
import GroupStats.Group.Summary
import GroupStats.Group.Totals
import GroupStats.Hash.Fraction
import GroupStats.Hash.Murmur
import GroupStats.Memory.Basic
import GroupStats.Memory.Ledger
import GroupStats.Merge.Source
import GroupStats.Merge.Streams
import GroupStats.Merge.Terms
import GroupStats.Metrics
import GroupStats.Session.Interleaved
import GroupStats.Session.Caller
import GroupStats.Session.Kernel
import GroupStats.Session.Multi
import GroupStats.Session.Rendezvous
import GroupStats.Session.Request
import GroupStats.Session.Shard
import GroupStats.Session.Snapshot
import GroupStats.Shard.Basic
import GroupStats.Shard.Column
import GroupStats.Shard.Stream
import GroupStats.Split.Index
import GroupStats.Split.Spill
import GroupStats.Split.Splitter
import GroupStats.Step
import GroupStats.Stream.Basic
import GroupStats.Stream.Replay
import GroupStats.Stream.Memory
import GroupStats.Stream.Source
import GroupStats.Stream.Walk
import GroupStats.Text.Escapes
import GroupStats.Text.Quoted
import GroupStats.Text.Utf8
import GroupStats.Wire.Reader
import GroupStats.Wire.Record
import GroupStats.Wire.Sink
import GroupStats.Wire.Writer
import GroupStats.Proofs.Bytes
import GroupStats.Proofs.Step
import GroupStats.Proofs.Text.Utf8
import GroupStats.Proofs.Wire.Record
import GroupStats.Proofs.Stream.Replay
import GroupStats.Proofs.Stream.Simulation
import GroupStats.Proofs.Wire.Writer
import GroupStats.Proofs.Wire.Reader
import GroupStats.Proofs.Wire.RoundTrip
import GroupStats.Proofs.Wire.Buffering
import GroupStats.Proofs.Wire.Grammar
import GroupStats.Proofs.Core.TermOrder
import GroupStats.Proofs.Merge.Spec
import GroupStats.Proofs.Group.Tally
import GroupStats.Proofs.Group.Seen
import GroupStats.Proofs.Group.Compaction
import GroupStats.Proofs.Merge.Laws
import GroupStats.Proofs.Merge.Lanes
import GroupStats.Proofs.Merge.Merger
import GroupStats.Proofs.Split.Routing
import GroupStats.Proofs.Split.Fanout
import GroupStats.Proofs.Split.Budget
import GroupStats.Proofs.Split.Merging
import GroupStats.Proofs.Group.Moves
import GroupStats.Proofs.Group.Excluded
import GroupStats.Proofs.Group.Bound
import GroupStats.Proofs.Session.Rendezvous
import GroupStats.Proofs.Session.Accounting
import GroupStats.Proofs.Memory.Ledger
import GroupStats.Proofs.Group.RuleRegroup
import GroupStats.Proofs.Merge.Union
import GroupStats.Proofs.Merge.Sources
import GroupStats.Proofs.Merge.Pointwise
import GroupStats.Proofs.Group.Bucketing
import GroupStats.Proofs.Group.RuleTable
import GroupStats.Proofs.Group.MultiSplit
import GroupStats.Proofs.Group.Filters
import GroupStats.Proofs.Group.Splits
import GroupStats.Proofs.Session.Atomic
import GroupStats.Proofs.Merge.Leftover
import GroupStats.Proofs.Shard.Stream
import GroupStats.Proofs.Session.Distinct
import GroupStats.Proofs.Session.GroupSums
import GroupStats.Proofs.Session.Round
import GroupStats.Proofs.Stream.Positions
import GroupStats.Proofs.Stream.Memory
import GroupStats.Proofs.Group.Conditions
