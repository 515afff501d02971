import CircuitPartition.Cost.Slack
import CircuitPartition.Refine.Run

/-!
All that can be asked of a cost model and a hypergraph, with whatever solution, state and bounds,
and the room that the answer takes.
-/

namespace CircuitPartition

inductive Query (α : Type) where
  | netDegrees (solution : Solution)
  | blockBalance (solution : Solution)
  | cutHyperedges (solution : Solution)
  | pathCost (p : Nat) (solution : Solution)
  | pathCosts (solution : Solution)
  | timingCuts (solution : Solution)
  | score (solution : Solution)
  | updateTiming (solution : Solution)
  | ofSolution (solution : Solution)
  | checkConsistency (state : PartitionState α)
  | pass (limits : RefineLimits) (bounds : Balance α) (state : PartitionState α)
  | refine (limits : RefineLimits) (bounds : Balance α) (state : PartitionState α)
  deriving DecidableEq, Repr

variable {α : Type}

def Hypergraph.crosses (graph : Hypergraph α) (solution : Solution) (p : Nat) : Bool :=
  match graph.path? p with
  | some path => 1 < (blockRuns (path.vertices.filterMap (solution[·]?))).length
  | none => false

namespace Query

def solution : Query α → Solution
  | .netDegrees solution | .blockBalance solution | .cutHyperedges solution | .pathCost _ solution
  | .pathCosts solution | .timingCuts solution | .score solution | .updateTiming solution
  | .ofSolution solution => solution
  | .checkConsistency state | .pass _ _ state | .refine _ _ state => state.solution

def entryBytes (graph : Hypergraph α) : Query α → Nat
  -- Of the longest vector that has an entry for each block.
  | .netDegrees _ => if graph.numHyperedges = 0 then 0 else 8
  | .pathCost p solution => if graph.crosses solution p then 8 else 0
  | .pathCosts solution =>
    if (List.range graph.numPaths).any (graph.crosses solution) then 8 else 0
  -- A row of the balance is a vector of its own, three words in the vector of all rows.
  | .blockBalance _ | .score _ | .ofSolution _ | .refine _ _ _ => 24
  | .cutHyperedges _ | .timingCuts _ | .updateTiming _ => 0
  -- These look at a state first, whose balance has a row for each block already.
  | .checkConsistency _ | .pass _ _ _ => 0

end Query

namespace CostModel

variable [Scalar α] (model : CostModel α) (graph : Hypergraph α)

def reserve (query : Query α) : Except Fault Unit :=
  if (model.checkSolution graph query.solution).isOk then
    Machine.reserve (query.entryBytes graph * model.numParts)
  else
    .ok ()

def ask (counting : Counting) (query : Query α) : Except (Failure α) Unit := do
  model.reserve graph query
  match query with
  | .netDegrees solution => discard (model.netDegrees graph solution)
  | .blockBalance solution => discard (model.blockBalance graph solution)
  | .cutHyperedges solution => discard (model.cutHyperedges graph solution)
  | .pathCost p solution => discard (model.pathCost graph p solution)
  | .pathCosts solution => discard (model.pathCosts graph solution)
  | .timingCuts solution => discard (model.timingCuts graph solution)
  | .score solution => discard (model.score graph solution)
  | .updateTiming solution => (model.updateTiming graph solution).outcome
  | .ofSolution solution => discard (PartitionState.ofSolution model graph solution)
  | .checkConsistency state => state.checkConsistency model graph
  | .pass limits bounds state => discard (counting.pass model graph limits bounds state)
  | .refine limits bounds state => discard (counting.refine model graph limits bounds state).outcome

end CostModel

end CircuitPartition
