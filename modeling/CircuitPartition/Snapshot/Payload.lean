import CircuitPartition.Graph.Builder
import CircuitPartition.Graph.Timing

/-!
What is stored of a hypergraph: everything but the indices that can be rebuilt. A payload becomes a
hypergraph by way of the builder, so that it passes the same checks.
-/

namespace CircuitPartition.Snapshot

structure TimingPayload (α : Type) where
  clockPeriod : α
  baseHyperedgeSlack : List α
  hyperedgeSlack : List α
  paths : List (TimingPath α)
  derived : Option (DerivedCosts α)
  deriving DecidableEq, Repr

structure Payload (α : Type) where
  version : SchemaVersion
  dimensions : Dimensions
  vertices : List (Vertex α)
  hyperedges : List (Hyperedge α)
  timing : Option (TimingPayload α)
  deriving DecidableEq, Repr

variable {α : Type}

def TimingPayload.ofTiming (timing : Timing α) : TimingPayload α where
  clockPeriod := timing.clockPeriod
  baseHyperedgeSlack := timing.baseHyperedgeSlack.toList
  hyperedgeSlack := timing.hyperedgeSlack.toList
  paths := timing.paths.toList
  derived := timing.derived

namespace Payload

def ofGraph (graph : Hypergraph α) : Payload α where
  version := .current
  dimensions := graph.dimensions
  vertices := graph.vertices.toList
  hyperedges := graph.hyperedges.toList
  timing := graph.timing.map .ofTiming

variable [Scalar α]

def addVertices (b : Builder α) (vertices : List (Vertex α)) :
    Except (GraphError α) (Builder α) :=
  vertices.foldlM (fun b v => b.addVertex v.weight v.location) b

def addHyperedges (b : Builder α) (hyperedges : List (Hyperedge α)) :
    Except (GraphError α) (Builder α) :=
  hyperedges.foldlM (fun b h => b.addHyperedge h.pins h.weight) b

def addSlacks (b : Builder α) (slacks : List α) : Except (GraphError α) (Builder α) :=
  slacks.zipIdx.foldlM (fun b (slack, e) => b.setHyperedgeSlack e slack) b

def addPaths (b : Builder α) (paths : List (TimingPath α)) : Except (GraphError α) (Builder α) :=
  paths.foldlM (fun b path => b.addPath path.vertices path.hyperedges path.baseSlack) b

def build (payload : Payload α) : Except (GraphError α) (Hypergraph α) := do
  let b := (Builder.empty payload.dimensions.vertex payload.dimensions.hyperedge)
    |>.withPlacementDimensions payload.dimensions.placement
  let b := match payload.timing with
    | some timing => b.withClockPeriod timing.clockPeriod
    | none => b
  let b ← addVertices b payload.vertices
  let b ← addHyperedges b payload.hyperedges
  match payload.timing with
  | none => b.build
  | some timing => (← addPaths (← addSlacks b timing.baseHyperedgeSlack) timing.paths).build

def restoreTiming (stored : TimingPayload α) (timing : Timing α) :
    Except (GraphError α) (Timing α) := do
  let timing ← stored.hyperedgeSlack.zipIdx.foldlM
    (fun timing (slack, e) => timing.setHyperedgeSlack e slack) timing
  let timing ← stored.paths.zipIdx.foldlM
    (fun timing (path, p) => timing.setPathSlack p path.slack) timing
  match stored.derived with
  | some derived => timing.setDerived derived
  | none => return timing

def toGraph (payload : Payload α) : Except (Failure α) (Hypergraph α) := do
  if !SchemaVersion.current.reads payload.version then
    throw (.document (.unsupportedVersion payload.version))
  let graph ← payload.build
  match payload.timing, graph.timing with
  | some stored, some timing => return { graph with timing := some (← restoreTiming stored timing) }
  | _, _ => return graph

end Payload

end CircuitPartition.Snapshot
