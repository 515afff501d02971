import CircuitPartition.Cost.Hyperedge
import CircuitPartition.Partition.Table

/-!
Which hyperedges a solution cuts, and the tables of a solution computed from scratch.
-/

namespace CircuitPartition

def isCut? (blockOf : Nat → Option Nat) : (pins : List Nat) → Option Bool
  | [] => some false
  | pin :: pins => do leaves (← blockOf pin) pins
where
  leaves (first : Nat) : List Nat → Option Bool
    | [] => some false
    | pin :: pins => do
      if (← blockOf pin) = first then leaves first pins else return true

def Hypergraph.isCut? {α : Type} (graph : Hypergraph α) (blockOf : Nat → Option Nat) (e : Nat) :
    Option Bool := do
  CircuitPartition.isCut? blockOf (← graph.hyperedge? e).pins

namespace CostModel

variable {α : Type} [Scalar α] (model : CostModel α) (graph : Hypergraph α)

def cutHyperedges (solution : Solution) : Except (Failure α) (List Nat) := do
  model.checkSolution graph solution
  Failure.ofLookup <| (List.range graph.numHyperedges).filterM (graph.isCut? (solution[·]?))

def netDegrees (solution : Solution) : Except (Failure α) (Array Degrees) := do
  model.checkSolution graph solution
  Failure.ofLookup <| graph.hyperedges.mapM fun h => do
    Degrees.ofBlocks? model.numParts (← h.pins.mapM (solution[·]?))

def blockBalance (solution : Solution) : Except (Failure α) (Balance α) := do
  model.checkSolution graph solution
  Failure.ofLookup <| solution.toList.zipIdx.foldlM
    (fun balance (block, v) => do balance.enter? block (← graph.vertex? v).weight)
    (Balance.empty model.numParts graph.dimensions.vertex)

end CostModel

end CircuitPartition
