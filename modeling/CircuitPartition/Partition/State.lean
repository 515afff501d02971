import CircuitPartition.Cost.Cut
import CircuitPartition.Cost.Path

/-!
A solution together with the tables and path costs that refinement reads on every hyperedge, kept up
to date vertex by vertex.
-/

namespace CircuitPartition

structure PartitionState (α : Type) where
  solution : Solution
  blockBalance : Balance α
  netDegrees : Array Degrees
  pathCosts : Array α
  deriving DecidableEq, Repr

namespace Counting

variable (counting : Counting)

def movePin (source target : Nat) (netDegrees : Array Degrees) (e : Nat) :
    Except Fault (Array Degrees) := do
  let degrees ← netDegrees[e]?
  return netDegrees.set! e (← counting.enter (← counting.leave degrees source) target)

def move {α : Type} [Scalar α] (graph : Hypergraph α) (state : PartitionState α) (v target : Nat) :
    Except Fault (PartitionState α) := do
  let source ← state.solution[v]?
  if source = target then
    return state
  let weight := (← graph.vertex? v).weight
  let netDegrees ←
    (← graph.vertexHyperedges? v).foldlM (counting.movePin source target) state.netDegrees
  let blockBalance ← (← state.blockBalance.leave? source weight).enter? target weight
  return { state with
    solution := state.solution.set! v target
    blockBalance
    netDegrees }

end Counting

namespace PartitionState

variable {α : Type} [Scalar α]

def ofSolution (model : CostModel α) (graph : Hypergraph α) (solution : Solution) :
    Except (Failure α) (PartitionState α) := do
  return {
    solution
    blockBalance := ← model.blockBalance graph solution
    netDegrees := ← model.netDegrees graph solution
    pathCosts := (← model.pathCosts graph solution).toArray }

def checkShape (model : CostModel α) (graph : Hypergraph α) (state : PartitionState α) :
    Except (Failure α) Unit := do
  model.checkSolution graph state.solution
  if state.netDegrees.size ≠ graph.numHyperedges ∨
      state.netDegrees.any (·.size ≠ model.numParts) then
    throw (.precondition (.stateShape .netDegrees graph.numHyperedges model.numParts))
  if state.blockBalance.size ≠ model.numParts ∨
      state.blockBalance.any (·.length ≠ graph.dimensions.vertex) then
    throw (.precondition (.stateShape .blockBalance model.numParts graph.dimensions.vertex))
  if state.pathCosts.size ≠ graph.numPaths then
    throw (.precondition (.stateShape .pathCosts graph.numPaths 1))

def driftTolerance : α :=
  1e-6

def sameWeights (row truth : List α) : Bool :=
  (row.zip truth).all fun (a, b) => approxEq a b driftTolerance

def findDrift (state truth : PartitionState α) : Option (PreconditionError α) :=
  let degrees := (state.netDegrees.toList.zip truth.netDegrees.toList).zipIdx
  let balances := (state.blockBalance.toList.zip truth.blockBalance.toList).zipIdx
  let costs := (state.pathCosts.toList.zip truth.pathCosts.toList).zipIdx
  match degrees.find? fun ((ours, theirs), _) => ours ≠ theirs with
  | some ((ours, theirs), e) => some (.netDegreeDrift e theirs ours)
  | none =>
    match balances.find? fun ((ours, theirs), _) => !sameWeights ours theirs with
    | some ((ours, theirs), block) => some (.blockBalanceDrift block theirs ours)
    | none =>
      match costs.find? fun ((ours, theirs), _) => !approxEq ours theirs driftTolerance with
      | some ((ours, theirs), p) => some (.pathCostDrift p theirs ours)
      | none => none

def checkConsistency (model : CostModel α) (graph : Hypergraph α) (state : PartitionState α) :
    Except (Failure α) Unit := do
  state.checkShape model graph
  match state.findDrift (← ofSolution model graph state.solution) with
  | some cause => throw (.precondition cause)
  | none => return ()

def move (graph : Hypergraph α) (state : PartitionState α) (v target : Nat) :
    Except Fault (PartitionState α) :=
  Counting.unbounded.move graph state v target

theorem unbounded_move (graph : Hypergraph α) : Counting.unbounded.move graph = move graph :=
  rfl

def refresh? (model : CostModel α) (graph : Hypergraph α) (state : PartitionState α)
    (paths : List Nat) : Option (PartitionState α) := do
  let pathCosts ← paths.foldlM refreshPath state.pathCosts
  return { state with pathCosts }
where
  refreshPath (costs : Array α) (p : Nat) : Option (Array α) := do
    let cost ← model.pathCostWith? graph (state.solution[·]?) p
    if p < costs.size then return costs.set! p cost else none

end PartitionState

end CircuitPartition
