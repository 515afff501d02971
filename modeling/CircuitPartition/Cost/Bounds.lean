import CircuitPartition.Graph.Basic
import CircuitPartition.Partition.Table

/-!
Upper bounds on the weight of a block.
-/

namespace CircuitPartition

variable {α : Type} [Scalar α]

def maxBlockBalance (graph : Hypergraph α) (numParts : Nat) (unbalance : α) : Balance α :=
  -- The total is summed up only if there is a block.
  if numParts = 0 then
    #[]
  else
    let share := 1 / (numParts : α) + unbalance / 100.0
    Array.replicate numParts (graph.totalVertexWeight.map (· * share))

end CircuitPartition
