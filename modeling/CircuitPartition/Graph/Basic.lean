import CircuitPartition.Scalar
import CircuitPartition.Error
import CircuitPartition.IndexSet

/-!
Weighted circuit hypergraphs with timing annotations. Vertices, hyperedges and timing paths are
addressed by their positions; a look-up of a position that is not there gives `none`.
-/

namespace CircuitPartition

structure Dimensions where
  vertex : Nat
  hyperedge : Nat
  placement : Nat
  deriving BEq, DecidableEq, Repr

structure Vertex (α : Type) where
  weight : List α
  location : List α
  deriving BEq, DecidableEq, Repr

structure Hyperedge (α : Type) where
  pins : List Nat
  weight : List α
  deriving BEq, DecidableEq, Repr

structure TimingPath (α : Type) where
  vertices : List Nat
  hyperedges : List Nat
  baseSlack : α
  slack : α
  deriving BEq, DecidableEq, Repr

structure DerivedCosts (α : Type) where
  pathCosts : Array α
  hyperedgeWeights : Array α
  deriving BEq, DecidableEq, Repr

structure Timing (α : Type) where
  clockPeriod : α
  baseHyperedgeSlack : Array α
  hyperedgeSlack : Array α
  paths : Array (TimingPath α)
  vertexPaths : Array (List Nat)
  hyperedgePaths : Array (List Nat)
  derived : Option (DerivedCosts α)
  deriving BEq, DecidableEq, Repr

structure Hypergraph (α : Type) where
  dimensions : Dimensions
  vertices : Array (Vertex α)
  hyperedges : Array (Hyperedge α)
  vertexHyperedges : Array (List Nat)
  timing : Option (Timing α)
  deriving BEq, DecidableEq, Repr

namespace Hypergraph

variable {α : Type} (graph : Hypergraph α)

def numVertices : Nat :=
  graph.vertices.size

def numHyperedges : Nat :=
  graph.hyperedges.size

def numPaths : Nat :=
  match graph.timing with
  | some timing => timing.paths.size
  | none => 0

def vertex? (v : Nat) : Option (Vertex α) :=
  graph.vertices[v]?

def hyperedge? (e : Nat) : Option (Hyperedge α) :=
  graph.hyperedges[e]?

def path? (p : Nat) : Option (TimingPath α) := do
  (← graph.timing).paths[p]?

def vertexHyperedges? (v : Nat) : Option (List Nat) :=
  graph.vertexHyperedges[v]?

def vertexPaths? (v : Nat) : Option (List Nat) :=
  match graph.timing with
  | some timing => timing.vertexPaths[v]?
  | none => some []

def hyperedgePaths? (e : Nat) : Option (List Nat) :=
  match graph.timing with
  | some timing => timing.hyperedgePaths[e]?
  | none => some []

def derived? : Option (DerivedCosts α) :=
  graph.timing.bind (·.derived)

def totalVertexWeight [Scalar α] : List α :=
  graph.vertices.foldl (fun total v => addOnto total v.weight)
    (List.replicate graph.dimensions.vertex 0)

end Hypergraph

end CircuitPartition
