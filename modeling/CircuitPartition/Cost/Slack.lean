import CircuitPartition.Cost.Cut
import CircuitPartition.Cost.Path
import CircuitPartition.Graph.Timing

/-!
The timing costs that a model derives from the slacks, and the slacks after the delay of the cuts
has been charged to them.
-/

namespace CircuitPartition

/--
Gives the values one after the other to the positions from `start` on, up to the first that is
refused. What was set before that stays set.
-/
def Timing.assign {α : Type} (set : Timing α → Nat → α → Except (GraphError α) (Timing α))
    (start : Nat) : List α → Timing α → Timing α × Except (GraphError α) Unit
  | [], timing => (timing, .ok ())
  | value :: values, timing =>
    match set timing start value with
    | .ok timing => Timing.assign set (start + 1) values timing
    | .error cause => (timing, .error cause)

structure Slacks (α : Type) where
  path : List α
  hyperedge : List α
  deriving DecidableEq, Repr

structure TimingUpdate (α : Type) where
  graph : Hypergraph α
  outcome : Except (Failure α) Unit

namespace CostModel

variable {α : Type} [Scalar α] (model : CostModel α) (graph : Hypergraph α)

def deriveCosts? (timing : Timing α) : Option (DerivedCosts α) := do
  let pathCosts := timing.paths.map fun path => model.slackScore path.slack timing.clockPeriod
  let weights ← timing.hyperedgeSlack.toList.zipIdx.mapM fun (slack, e) => do
    let traversing ← (← timing.hyperedgePaths[e]?).mapM (pathCosts[·]?)
    return model.slackScore slack timing.clockPeriod + Scalar.sum traversing
  return ⟨pathCosts, weights.toArray⟩

def initializeTiming : Except (Failure α) (Hypergraph α) := do
  match graph.timing with
  | none => return graph
  | some timing =>
    let derived ← Failure.ofLookup <| model.deriveCosts? timing
    return { graph with timing := some (← timing.setDerived derived) }

/--
The slacks under a solution. A path loses the cut delay with every cut hyperedge that it lists; a
hyperedge loses it once if it is cut, and has no more slack than any path that traverses it.
-/
def chargedSlacks? (timing : Timing α) (solution : Solution) : Option (Slacks α) := do
  let cut ← (List.range graph.numHyperedges).mapM (graph.isCut? (solution[·]?))
  let cut := cut.toArray
  let pathSlacks ← timing.paths.toList.mapM fun path => do
    let crossed ← path.hyperedges.filterM (cut[·]?)
    return path.baseSlack - model.cutDelay * (crossed.length : α)
  let hyperedgeSlacks ← timing.baseHyperedgeSlack.toList.zipIdx.mapM fun (base, e) => do
    let own := if (← cut[e]?) then base - model.cutDelay else base
    let traversing ← (← timing.hyperedgePaths[e]?).mapM (pathSlacks[·]?)
    return traversing.foldl Scalar.min own
  return ⟨pathSlacks, hyperedgeSlacks⟩

def updateTiming (solution : Solution) : TimingUpdate α :=
  match model.checkSolution graph solution, graph.timing with
  | .error failure, _ => ⟨graph, .error failure⟩
  | .ok (), none => ⟨graph, .ok ()⟩
  | .ok (), some timing =>
    match model.chargedSlacks? graph timing solution with
    | none => ⟨graph, .error (.fault .outOfRange)⟩
    | some slacks =>
      match timing.assign Timing.setPathSlack 0 slacks.path with
      | (timing, .error cause) => ⟨{ graph with timing := some timing }, .error (.graph cause)⟩
      | (timing, .ok ()) =>
        match timing.assign Timing.setHyperedgeSlack 0 slacks.hyperedge with
        | (timing, .error cause) => ⟨{ graph with timing := some timing }, .error (.graph cause)⟩
        | (timing, .ok ()) =>
          let charged := { graph with timing := some timing }
          match model.initializeTiming charged with
          | .error failure => ⟨charged, .error failure⟩
          | .ok initialized => ⟨initialized, .ok ()⟩

end CostModel

end CircuitPartition
