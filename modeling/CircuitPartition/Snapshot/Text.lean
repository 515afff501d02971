import CircuitPartition.Json.Parser
import CircuitPartition.Json.Printer
import CircuitPartition.Json.Record
import CircuitPartition.Snapshot.Payload

/-!
Hypergraphs stored as JSON texts.
-/

namespace CircuitPartition

open Json (Field)

namespace SchemaVersion

def toJson (v : SchemaVersion) : Json :=
  .ofFields [("major", .ofNat v.major.toNat), ("minor", .ofNat v.minor.toNat),
    ("patch", .ofNat v.patch.toNat)]

def ofJson? (value : Json) : Option SchemaVersion := do
  match ← value.record? [⟨"major", .required⟩, ⟨"minor", .required⟩, ⟨"patch", .required⟩] with
  | [some major, some minor, some patch] =>
    return ⟨← major.uint32?, ← minor.uint32?, ← patch.uint32?⟩
  | _ => none

end SchemaVersion

namespace Snapshot

def vertexToJson (v : Vertex Double) : Json :=
  .ofFields [("weight", .ofDoubles v.weight), ("location", .ofDoubles v.location)]

def vertexOfJson? (value : Json) : Option (Vertex Double) := do
  match ← value.record? [⟨"weight", .required⟩, ⟨"location", .defaulted⟩] with
  | [some weight, location] =>
    return ⟨← weight.list? Json.double?, ← Json.orDefault? [] (Json.list? Json.double?) location⟩
  | _ => none

def hyperedgeToJson (h : Hyperedge Double) : Json :=
  .ofFields [("pins", .ofIndices h.pins), ("weight", .ofDoubles h.weight)]

def hyperedgeOfJson? (value : Json) : Option (Hyperedge Double) := do
  match ← value.record? [⟨"pins", .required⟩, ⟨"weight", .required⟩] with
  | [some pins, some weight] => return ⟨← pins.list? Json.index?, ← weight.list? Json.double?⟩
  | _ => none

def pathToJson (p : TimingPath Double) : Json :=
  .ofFields [("vertices", .ofIndices p.vertices), ("hyperedges", .ofIndices p.hyperedges),
    ("original_slack", .ofDouble p.baseSlack), ("slack", .ofDouble p.slack)]

def pathOfJson? (value : Json) : Option (TimingPath Double) := do
  match ← value.record? [⟨"vertices", .required⟩, ⟨"hyperedges", .required⟩,
    ⟨"original_slack", .required⟩, ⟨"slack", .required⟩] with
  | [some vertices, some hyperedges, some baseSlack, some slack] =>
    return {
      vertices := ← vertices.list? Json.index?
      hyperedges := ← hyperedges.list? Json.index?
      baseSlack := ← baseSlack.double?
      slack := ← slack.double? }
  | _ => none

def derivedToJson (d : DerivedCosts Double) : Json :=
  .ofFields [("path_timing_cost", .ofDoubles d.pathCosts.toList),
    ("hyperedge_timing_weight", .ofDoubles d.hyperedgeWeights.toList)]

def derivedOfJson? (value : Json) : Option (DerivedCosts Double) := do
  match ← value.record? [⟨"path_timing_cost", .required⟩,
    ⟨"hyperedge_timing_weight", .required⟩] with
  | [some costs, some weights] =>
    return ⟨(← costs.list? Json.double?).toArray, (← weights.list? Json.double?).toArray⟩
  | _ => none

namespace TimingPayload

def toJson (t : TimingPayload Double) : Json :=
  .ofFields [("clock_period", .ofDouble t.clockPeriod),
    ("original_hyperedge_slack", .ofDoubles t.baseHyperedgeSlack),
    ("hyperedge_slack", .ofDoubles t.hyperedgeSlack),
    ("paths", .array (t.paths.map pathToJson)),
    ("derived", t.derived.elim .null derivedToJson)]

def ofJson? (value : Json) : Option (TimingPayload Double) := do
  match ← value.record? [⟨"clock_period", .required⟩, ⟨"original_hyperedge_slack", .required⟩,
    ⟨"hyperedge_slack", .required⟩, ⟨"paths", .required⟩, ⟨"derived", .optional⟩] with
  | [some clockPeriod, some base, some slack, some paths, derived] =>
    return {
      clockPeriod := ← clockPeriod.double?
      baseHyperedgeSlack := ← base.list? Json.double?
      hyperedgeSlack := ← slack.list? Json.double?
      paths := ← paths.list? pathOfJson?
      derived := ← Json.optional? derivedOfJson? derived }
  | _ => none

end TimingPayload

namespace Payload

def toJson (p : Payload Double) : Json :=
  .ofFields [("schema_version", p.version.toJson),
    ("vertex_dimensions", .ofNat p.dimensions.vertex),
    ("hyperedge_dimensions", .ofNat p.dimensions.hyperedge),
    ("placement_dimensions", .ofNat p.dimensions.placement),
    ("vertices", .array (p.vertices.map vertexToJson)),
    ("hyperedges", .array (p.hyperedges.map hyperedgeToJson)),
    ("timing", p.timing.elim .null TimingPayload.toJson)]

def fields : List Field :=
  [⟨"schema_version", .required⟩, ⟨"vertex_dimensions", .required⟩,
    ⟨"hyperedge_dimensions", .required⟩, ⟨"placement_dimensions", .required⟩,
    ⟨"vertices", .required⟩, ⟨"hyperedges", .required⟩, ⟨"timing", .optional⟩]

def ofJson? (value : Json) : Option (Payload Double) := do
  match ← value.record? fields with
  | [some version, some vertexDimensions, some hyperedgeDimensions, some placementDimensions,
      some vertices, some hyperedges, timing] =>
    return {
      version := ← SchemaVersion.ofJson? version
      dimensions := ⟨← vertexDimensions.index?, ← hyperedgeDimensions.index?,
        ← placementDimensions.index?⟩
      vertices := ← vertices.list? vertexOfJson?
      hyperedges := ← hyperedges.list? hyperedgeOfJson?
      timing := ← Json.optional? TimingPayload.ofJson? timing }
  | _ => none

end Payload

end Snapshot

namespace Hypergraph

def toJsonText (graph : Hypergraph Double) : String :=
  (Snapshot.Payload.ofGraph graph).toJson.pretty

def ofJsonText (text : String) : Except (Failure Double) (Hypergraph Double) :=
  match (Json.parse? text).bind Snapshot.Payload.ofJson? with
  | some payload => payload.toGraph
  | none => .error (.document .malformedJson)

end Hypergraph

end CircuitPartition
