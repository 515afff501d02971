import CircuitPartition.Graph.Basic

/-!
The factors of a timing-driven cost model, and what it asks of the hypergraphs and solutions that it
scores.
-/

namespace CircuitPartition

abbrev Solution :=
  Array Nat

structure CostModel (α : Type) where
  numParts : Nat
  -- Delay charged to a path for every cut hyperedge that it traverses.
  cutDelay : α
  hyperedgeFactors : List α
  vertexFactors : List α
  placementFactors : List α
  timingFactor : α
  pathFactor : α
  -- Cost of each return of a path to a block.
  snakingFactor : α
  timingExponent : α
  deriving DecidableEq, Repr

namespace CostModel

variable {α : Type} [Scalar α]

def standard : CostModel α where
  numParts := 2
  cutDelay := 1
  hyperedgeFactors := [1]
  vertexFactors := [1]
  placementFactors := []
  timingFactor := 1
  pathFactor := 1
  snakingFactor := 1
  timingExponent := 2.0

def values (model : CostModel α) : Factor → List α
  | .cutDelay => [model.cutDelay]
  | .hyperedgeWeights => model.hyperedgeFactors
  | .vertexWeights => model.vertexFactors
  | .placement => model.placementFactors
  | .timing => [model.timingFactor]
  | .path => [model.pathFactor]
  | .snaking => [model.snakingFactor]
  | .timingExponent => [model.timingExponent]

def factorOrder : List Factor :=
  [.cutDelay, .timing, .path, .snaking, .timingExponent, .hyperedgeWeights, .vertexWeights,
    .placement]

def validate (model : CostModel α) : Except ConfigError Unit :=
  if model.numParts < 2 then
    .error (.tooFewParts model.numParts)
  else
    match factorOrder.find? fun factor => !(model.values factor).all Scalar.isFinite with
    | some factor => .error (.nonFinite factor)
    | none => .ok ()

def checkCompatible (model : CostModel α) (graph : Hypergraph α) : Except ConfigError Unit := do
  check .hyperedgeWeights graph.dimensions.hyperedge
  check .vertexWeights graph.dimensions.vertex
  check .placement graph.dimensions.placement
where
  check (factor : Factor) (expected : Nat) : Except ConfigError Unit :=
    let actual := (model.values factor).length
    if actual = expected then .ok () else .error (.factorCount factor expected actual)

def accept (model : CostModel α) (graph : Hypergraph α) : Except ConfigError Unit := do
  model.validate
  model.checkCompatible graph

def checkSolution (model : CostModel α) (graph : Hypergraph α) (solution : Solution) :
    Except (Failure α) Unit := do
  model.checkCompatible graph
  if solution.size ≠ graph.numVertices then
    throw (.precondition (.solutionLength graph.numVertices solution.size))
  match solution.toList.zipIdx.find? fun (block, _) => model.numParts ≤ block with
  | some (block, v) => throw (.precondition (.blockOutOfRange v block model.numParts))
  | none => return ()

end CostModel

end CircuitPartition
