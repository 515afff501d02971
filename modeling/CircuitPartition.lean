import CircuitPartition.Bytes
import CircuitPartition.Config.Basic
import CircuitPartition.Config.Yaml
import CircuitPartition.Cost.Bounds
import CircuitPartition.Cost.Cut
import CircuitPartition.Cost.Hyperedge
import CircuitPartition.Cost.Model
import CircuitPartition.Cost.Path
import CircuitPartition.Cost.Placement
import CircuitPartition.Cost.Score
import CircuitPartition.Cost.Slack
import CircuitPartition.Decimal.Fixed
import CircuitPartition.Decimal.Layout
import CircuitPartition.Decimal.Numeral
import CircuitPartition.Decimal.Shortest
import CircuitPartition.Double
import CircuitPartition.Error
import CircuitPartition.Graph.Basic
import CircuitPartition.Graph.Builder
import CircuitPartition.Graph.Digest
import CircuitPartition.Graph.Random
import CircuitPartition.Graph.Timing
import CircuitPartition.Graph.Validation
import CircuitPartition.IndexSet
import CircuitPartition.Json.Basic
import CircuitPartition.Json.Form
import CircuitPartition.Json.Number
import CircuitPartition.Json.Parser
import CircuitPartition.Json.Printer
import CircuitPartition.Json.Record
import CircuitPartition.Json.Token
import CircuitPartition.Log
import CircuitPartition.Machine
import CircuitPartition.Partition.State
import CircuitPartition.Partition.Table
import CircuitPartition.Random.Choice
import CircuitPartition.Random.Sampler
import CircuitPartition.Random.Seed
import CircuitPartition.Random.Source
import CircuitPartition.Random.Uniform
import CircuitPartition.Refine.Gain
import CircuitPartition.Refine.Move
import CircuitPartition.Refine.Pass
import CircuitPartition.Refine.Query
import CircuitPartition.Refine.Run
import CircuitPartition.Report
import CircuitPartition.Scalar
import CircuitPartition.SchemaVersion
import CircuitPartition.Sha256
import CircuitPartition.Snapshot.Binary
import CircuitPartition.Snapshot.Payload
import CircuitPartition.Snapshot.Text
import CircuitPartition.Word
import CircuitPartition.Yaml.Lexer
import CircuitPartition.Yaml.Node
import CircuitPartition.Yaml.Tag
import CircuitPartition.Yaml.Text
import CircuitPartition.Yaml.Token
import CircuitPartition.Yaml.Value
import CircuitPartition.Proofs.Exact
import CircuitPartition.Proofs.Double
import CircuitPartition.Proofs.Whole
import CircuitPartition.Proofs.Rounding
import CircuitPartition.Proofs.IndexSet
import CircuitPartition.Proofs.Lookup
import CircuitPartition.Proofs.Graph.Step
import CircuitPartition.Proofs.Graph.WellFormed
import CircuitPartition.Proofs.Graph.Reachable
import CircuitPartition.Proofs.Graph.Annotation
import CircuitPartition.Proofs.Graph.Assembly
import CircuitPartition.Proofs.Graph.Dimensions
import CircuitPartition.Proofs.Graph.Incidence
import CircuitPartition.Proofs.Graph.Representation
import CircuitPartition.Proofs.Cost.Query
import CircuitPartition.Proofs.Cost.Slack
import CircuitPartition.Proofs.Cost.Walk
import CircuitPartition.Proofs.Cost.Safety
import CircuitPartition.Proofs.Cost.Charge
import CircuitPartition.Proofs.Cost.Relabeling
import CircuitPartition.Proofs.Cost.Merging
import CircuitPartition.Proofs.Partition.Table
import CircuitPartition.Proofs.Partition.Move
import CircuitPartition.Proofs.Partition.Tracks
import CircuitPartition.Proofs.Cost.Cut
import CircuitPartition.Proofs.Partition.Weighing
import CircuitPartition.Proofs.Partition.Shape
import CircuitPartition.Proofs.Partition.Consistency
import CircuitPartition.Proofs.Partition.Safety
import CircuitPartition.Proofs.Refine.Commit
import CircuitPartition.Proofs.Refine.Price
import CircuitPartition.Proofs.Refine.Pass
import CircuitPartition.Proofs.Refine.Run
import CircuitPartition.Proofs.Refine.Drift
import CircuitPartition.Proofs.Refine.Steps
import CircuitPartition.Proofs.Refine.Locality
import CircuitPartition.Proofs.Refine.Accounting
import CircuitPartition.Proofs.Refine.Legality
import CircuitPartition.Proofs.Refine.Reference
import CircuitPartition.Proofs.Refine.Capacity
import CircuitPartition.Proofs.Refine.Feasible
import CircuitPartition.Proofs.Refine.Atomicity
import CircuitPartition.Proofs.Refine.Safety
import CircuitPartition.Proofs.Refine.Counting
import CircuitPartition.Proofs.Refine.Query
import CircuitPartition.Proofs.Refine.Acceptance
import CircuitPartition.Proofs.Refine.Worth
import CircuitPartition.Proofs.Refine.Visit
import CircuitPartition.Proofs.Refine.Choice
import CircuitPartition.Proofs.Refine.Budget
import CircuitPartition.Proofs.Refine.Optimum
import CircuitPartition.Proofs.Snapshot.Reachable
import CircuitPartition.Proofs.Snapshot.Replay
import CircuitPartition.Proofs.Graph.Changes
import CircuitPartition.Proofs.Graph.History
import CircuitPartition.Proofs.Graph.Overflow
import CircuitPartition.Proofs.Graph.Digest
import CircuitPartition.Proofs.Json.Lexer
import CircuitPartition.Proofs.Json.Printing
import CircuitPartition.Proofs.Json.Record
import CircuitPartition.Proofs.Context
import CircuitPartition.Proofs.Json.Report
import CircuitPartition.Proofs.Snapshot.Text
import CircuitPartition.Proofs.Partition.Diagnosis
import CircuitPartition.Proofs.Refine.Ordering
import CircuitPartition.Proofs.Random.Ensures
import CircuitPartition.Proofs.Random.Sampler
import CircuitPartition.Proofs.Graph.Laying
import CircuitPartition.Proofs.Graph.Generated
import CircuitPartition.Proofs.Yaml.Lexer
import CircuitPartition.Proofs.Yaml.Outline
import CircuitPartition.Proofs.Yaml.Document
import CircuitPartition.Proofs.Yaml.Value
import CircuitPartition.Proofs.Config.Yaml
