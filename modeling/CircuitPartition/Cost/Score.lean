import CircuitPartition.Cost.Cut
import CircuitPartition.Cost.Path

/-!
The cost and balance of a partition.
-/

namespace CircuitPartition

structure Score (α : Type) where
  cutCost : α
  pathCost : α
  balance : Balance α
  deriving DecidableEq, Repr

structure Rating (α : Type) where
  cost : α
  blockBalance : Balance α
  deriving DecidableEq, Repr

variable {α : Type} [Scalar α]

def Score.cost (score : Score α) : α :=
  score.cutCost + score.pathCost

def Score.rating (score : Score α) : Rating α :=
  ⟨score.cost, score.balance⟩

def CostModel.score (model : CostModel α) (graph : Hypergraph α) (solution : Solution) :
    Except (Failure α) (Score α) := do
  let cut ← model.cutHyperedges graph solution
  let costs ← Failure.ofLookup <| cut.mapM (model.hyperedgeCost? graph)
  return {
    cutCost := Scalar.sum costs
    pathCost := Scalar.sum (← model.pathCosts graph solution)
    balance := ← model.blockBalance graph solution }

end CircuitPartition
