import CircuitPartition.Cost.Model

/-!
Distances between the placements of vertices, and their weighted midpoints.
-/

namespace CircuitPartition.CostModel

variable {α : Type} [Scalar α] (model : CostModel α) (graph : Hypergraph α)

def distance? (v u : Nat) : Option α := do
  if graph.dimensions.placement = 0 then
    return 0
  let a ← graph.vertex? v
  let b ← graph.vertex? u
  let squares := List.zipWith (fun factor (x, y) => factor * (x - y) * (x - y))
    model.placementFactors (a.location.zip b.location)
  return Scalar.sqrt (Scalar.sum squares)

def centroid (weightA weightB locationA locationB : List α) : List α :=
  let normA := dot model.vertexFactors weightA
  let normB := dot model.vertexFactors weightB
  let total := normA + normB
  List.zipWith
    (fun a b => if total == 0 then (a + b) / 2.0 else (normA * a + normB * b) / total)
    locationA locationB

def vertexCentroid? (v u : Nat) : Option (List α) := do
  let a ← graph.vertex? v
  let b ← graph.vertex? u
  return model.centroid a.weight b.weight a.location b.location

end CircuitPartition.CostModel
