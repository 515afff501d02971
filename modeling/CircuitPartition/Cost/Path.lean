import CircuitPartition.Cost.Model

/-!
What a solution makes of the timing paths: how often each crosses between blocks, how often it comes
back to one, and what that costs.
-/

namespace CircuitPartition

def blockRuns : List Nat → List Nat
  | [] => []
  | block :: blocks =>
    match blockRuns blocks with
    | [] => [block]
    | next :: runs => if block = next then next :: runs else block :: next :: runs

def returns (runs : List Nat) : Nat :=
  (runs.map runs.count).max?.getD 1 - 1

structure TimingCuts (α : Type) where
  total : Nat
  worst : Nat
  average : α
  deriving DecidableEq, Repr

namespace CostModel

variable {α : Type} [Scalar α] (model : CostModel α) (graph : Hypergraph α)

def slackScore (slack clockPeriod : α) : α :=
  Scalar.pow (Scalar.max (1 - slack / clockPeriod) 0) model.timingExponent

def pathScore? (p : Nat) : Option α :=
  match graph.timing with
  | some timing => do return model.slackScore (← timing.paths[p]?).slack timing.clockPeriod
  | none => some 0

def pathCostWith? (blockOf : Nat → Option Nat) (p : Nat) : Option α := do
  let runs := blockRuns (← (← graph.path? p).vertices.mapM blockOf)
  if runs.length ≤ 1 then
    return 0
  if runs.any (model.numParts ≤ ·) then
    none
  return model.pathFactor * (← model.pathScore? graph p) * ((runs.length - 1 : Nat) : α)
    + model.snakingFactor * (returns runs : α)

def pathCost (p : Nat) (solution : Solution) : Except (Failure α) α := do
  if graph.numPaths ≤ p then
    throw (.precondition (.unknownPath p graph.numPaths))
  model.checkSolution graph solution
  Failure.ofLookup <| model.pathCostWith? graph (solution[·]?) p

def pathCosts (solution : Solution) : Except (Failure α) (List α) := do
  model.checkSolution graph solution
  Failure.ofLookup <| (List.range graph.numPaths).mapM (model.pathCostWith? graph (solution[·]?))

def timingCuts (solution : Solution) : Except (Failure α) (TimingCuts α) := do
  model.checkSolution graph solution
  let paths := (graph.timing.map (·.paths.toList)).getD []
  let crossings ← Failure.ofLookup <| paths.mapM fun path => do
    return (blockRuns (← path.vertices.mapM (solution[·]?))).length - 1
  let total := crossings.foldl (· + ·) 0
  return {
    total
    worst := crossings.max?.getD 0
    average := if paths.isEmpty then 0 else (total : α) / (paths.length : α) }

end CostModel

end CircuitPartition
