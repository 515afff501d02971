import CircuitPartition.Cost.Model

/-!
What it costs to cut a hyperedge, and the norms of vertex weights.
-/

namespace CircuitPartition.CostModel

variable {α : Type} [Scalar α] (model : CostModel α) (graph : Hypergraph α)

def hyperedgeTimingCost? (e : Nat) : Option α :=
  match graph.derived? with
  | some derived => derived.hyperedgeWeights[e]?.map (model.timingFactor * ·)
  | none => some 0

def hyperedgeCost? (e : Nat) : Option α := do
  let base := dot model.hyperedgeFactors (← graph.hyperedge? e).weight
  if graph.derived?.isSome then
    return base * (1 + (← model.hyperedgeTimingCost? graph e))
  else
    return base

def normalizedCost (e : Nat) : Except (Failure α) α := do
  let pins := (← graph.hyperedge? e).pins.length
  if pins < 2 then
    throw (.precondition (.degenerateHyperedge e pins))
  return (← model.hyperedgeCost? graph e) / ((pins - 1 : Nat) : α)

def vertexNorm? (v : Nat) : Option α := do
  return dot model.vertexFactors (← graph.vertex? v).weight

def pinNormSum? (e : Nat) : Option α := do
  return Scalar.sum (← (← graph.hyperedge? e).pins.mapM (model.vertexNorm? graph))

end CircuitPartition.CostModel
