import CircuitPartition.Decimal.Layout
import CircuitPartition.Error

/-!
What a caller gets to see of a failure: a stable code, a message, the entities involved by their
role, and perhaps a hint.
-/

namespace CircuitPartition

inductive Family where
  | graph
  | config
  | precondition
  | document
  deriving DecidableEq, Repr

namespace Family

def all : List Family :=
  [.graph, .config, .precondition, .document]

def tag : Family → String
  | .graph => "Graph"
  | .config => "Config"
  | .precondition => "Precondition"
  | .document => "Serde"

def ofTag? (tag : String) : Option Family :=
  all.find? (·.tag == tag)

theorem ofTag?_tag (f : Family) : ofTag? f.tag = some f := by
  cases f <;> decide

def heading : Family → String
  | .graph => "graph error"
  | .config => "config error"
  | .precondition => "precondition error"
  | .document => "serde error"

end Family

abbrev Context :=
  List (String × String)

def Context.insert (key value : String) : Context → Context
  | [] => [(key, value)]
  | (k, v) :: rest =>
    if key < k then (key, value) :: (k, v) :: rest
    else if key = k then (key, value) :: rest
    else (k, v) :: Context.insert key value rest

def Context.ofList (entries : List (String × String)) : Context :=
  entries.foldl (fun context (key, value) => Context.insert key value context) []

structure Detail where
  code : String
  message : String
  context : Context
  hint : Option String
  deriving DecidableEq, Repr

namespace Detail

def ofEntries (code message : String) (entries : List (String × String))
    (hint : Option String) : Detail :=
  ⟨code, message, Context.ofList entries, hint⟩

def toString (d : Detail) : String :=
  let entries := d.context.map fun (key, value) => key ++ "=" ++ value
  d.message ++ " (code: " ++ d.code ++ ")"
    ++ (if entries.isEmpty then "" else " | context: " ++ Decimal.bracketed entries)
    ++ d.hint.elim "" (" | hint: " ++ ·)

end Detail

structure Report where
  family : Family
  detail : Detail
  deriving DecidableEq, Repr

def Report.toString (r : Report) : String :=
  r.family.heading ++ ": " ++ r.detail.toString

def Report.ofCounts (family : Family) (code message : String) (counts : List (String × Nat)) :
    Report :=
  ⟨family, .ofEntries code message (counts.map fun (key, n) => (key, s!"{n}")) none⟩

def Entity.name : Entity → String
  | .vertex => "vertex"
  | .hyperedge => "hyperedge"
  | .path => "path"

def Quantity.name : Quantity → String
  | .vertexWeight => "vertex weight"
  | .placement => "placement"
  | .hyperedgeWeight => "hyperedge weight"
  | .hyperedgeSlack => "hyperedge slack"
  | .pathSlack => "path slack"

def Factor.key : Factor → String
  | .cutDelay => "extra_cut_delay"
  | .hyperedgeWeights => "e_wt_factors"
  | .vertexWeights => "v_wt_factors"
  | .placement => "placement_wt_factors"
  | .timing => "timing_factor"
  | .path => "path_wt_factor"
  | .snaking => "snaking_wt_factor"
  | .timingExponent => "timing_exp_factor"

def StateTable.key : StateTable → String
  | .netDegrees => "net_degs"
  | .blockBalance => "block_balance"
  | .pathCosts => "paths_cost"

def GraphError.report : GraphError Double → Report
  | .unknown kind index count =>
    .ofCounts .graph s!"unknown-{kind.name}" s!"{kind.name} does not exist"
      [(kind.name, index), ("count", count)]
  | .dimensionMismatch what expected actual =>
    .ofCounts .graph "dimension-mismatch" s!"{what.name} vector has the wrong dimensionality"
      [("expected", expected), ("actual", actual)]
  | .nonFinite what index =>
    .ofCounts .graph "non-finite-value" s!"{what.name} contains a non-finite entry"
      [("index", index)]
  | .emptyHyperedge hyperedge =>
    .ofCounts .graph "empty-hyperedge" "hyperedges require at least one pin"
      [("hyperedge", hyperedge)]
  | .emptyPath path =>
    .ofCounts .graph "empty-path" "timing paths require at least one vertex" [("path", path)]
  | .detachedHyperedge path hyperedge =>
    .ofCounts .graph "path-hyperedge-detached"
      "path lists a hyperedge that touches none of its vertices"
      [("path", path), ("hyperedge", hyperedge)]
  | .zeroDimensions vertex hyperedge =>
    .ofCounts .graph "zero-dimensions" "weight vectors need at least one dimension"
      [("vertex_dimensions", vertex), ("hyperedge_dimensions", hyperedge)]
  | .missingClockPeriod =>
    ⟨.graph, .ofEntries "missing-clock-period" "slack annotations require a clock period" []
      (some "call with_clock_period before build")⟩
  | .invalidClockPeriod period =>
    ⟨.graph, .ofEntries "invalid-clock-period" "clock period must be positive"
      [("clock_period", Decimal.Layout.plain.render period)] none⟩
  | .derivedLength paths pathCosts hyperedges hyperedgeWeights =>
    .ofCounts .graph "derived-cost-length" "derived timing cost vectors are mis-sized"
      [("paths", paths), ("path_costs", pathCosts), ("hyperedges", hyperedges),
        ("hyperedge_weights", hyperedgeWeights)]
  | .tooFewVertices count =>
    .ofCounts .graph "too-few-vertices" "random hypergraphs need at least two vertices"
      [("num_vertices", count)]

def ConfigError.report : ConfigError → Report
  | .tooFewParts numParts =>
    .ofCounts .config "num-parts" "a partition needs at least two blocks"
      [("num_parts", numParts)]
  | .nonFinite factor =>
    ⟨.config, .ofEntries "non-finite-factor" "cost model factors must be finite"
      [("field", factor.key)] none⟩
  | .factorCount factor expected actual =>
    ⟨.config, .ofEntries "factor-dimension-mismatch"
      "weight factor vector does not match the hypergraph dimensionality"
      [("field", factor.key), ("expected", s!"{expected}"), ("actual", s!"{actual}")] none⟩

def PreconditionError.report : PreconditionError Double → Report
  | .solutionLength expected actual =>
    .ofCounts .precondition "solution-length" "solution does not cover every vertex"
      [("expected", expected), ("actual", actual)]
  | .blockOutOfRange vertex block numParts =>
    .ofCounts .precondition "block-out-of-range" "vertex assigned to a nonexistent block"
      [("vertex", vertex), ("block", block), ("num_parts", numParts)]
  | .degenerateHyperedge hyperedge pins =>
    .ofCounts .precondition "degenerate-hyperedge"
      "normalized score needs a hyperedge with at least two pins"
      [("hyperedge", hyperedge), ("pins", pins)]
  | .unknownPath path count =>
    .ofCounts .precondition "unknown-path" "path does not exist" [("path", path), ("count", count)]
  | .stateShape table rows columns =>
    ⟨.precondition, .ofEntries "state-shape" "partition state has the wrong shape"
      [("field", table.key), ("rows", s!"{rows}"), ("columns", s!"{columns}")] none⟩
  | .netDegreeDrift hyperedge expected actual =>
    ⟨.precondition, .ofEntries "net-degree-drift" "net degrees disagree with the solution"
      [("hyperedge", s!"{hyperedge}"), ("expected", counts expected), ("actual", counts actual)]
      none⟩
  | .blockBalanceDrift block expected actual =>
    ⟨.precondition, .ofEntries "block-balance-drift" "block balance disagrees with the solution"
      [("block", s!"{block}"), ("expected", weights expected), ("actual", weights actual)] none⟩
  | .pathCostDrift path expected actual =>
    ⟨.precondition, .ofEntries "path-cost-drift" "path cost disagrees with the solution"
      [("path", s!"{path}"), ("expected", Decimal.Layout.plain.render expected),
        ("actual", Decimal.Layout.plain.render actual)] none⟩
  | .boundsShape numParts dimensions rows =>
    .ofCounts .precondition "max-balance-shape"
      "max block balance must be num_parts x vertex_dimensions"
      [("num_parts", numParts), ("dimensions", dimensions), ("rows", rows)]
where
  counts (row : Array Nat) : String :=
    Decimal.bracketed (row.toList.map fun n => s!"{n}")
  weights (row : List Double) : String :=
    Decimal.bracketed (row.map Decimal.Layout.tagged.render)

def DocumentError.report : DocumentError → Report
  | .malformedJson =>
    ⟨.document, .ofEntries "deserialize-json" "text is not a stored hypergraph" [] none⟩
  | .malformedBytes =>
    ⟨.document, .ofEntries "deserialize-bytes" "bytes are not a stored hypergraph" [] none⟩
  | .malformedYaml =>
    ⟨.document, .ofEntries "yaml-parse" "text is not a configuration" [] none⟩
  | .unreadableFile path =>
    ⟨.document, .ofEntries "config-read" "file cannot be read" [("path", path)] none⟩
  | .unsupportedVersion found =>
    ⟨.document, .ofEntries "schema-version" "unsupported hypergraph schema version"
      [("found", found.toString)] none⟩

def Failure.report? : Failure Double → Option Report
  | .graph cause => some cause.report
  | .config cause => some cause.report
  | .precondition cause => some cause.report
  | .document cause => some cause.report
  | .fault _ => none

end CircuitPartition
