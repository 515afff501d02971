import CircuitPartition.Partition.State
import CircuitPartition.Refine.Gain

/-!
Moving all pins of a hyperedge into one block: whether it is legal, what it is worth, and how it is
done.
-/

namespace CircuitPartition

def Hypergraph.touchedHyperedges? {α : Type} (graph : Hypergraph α) (vertices : List Nat) :
    Option (List Nat) := do
  return IndexSet.ofList (← vertices.mapM graph.vertexHyperedges?).flatten

def Hypergraph.touchedPaths? {α : Type} (graph : Hypergraph α) (vertices : List Nat) :
    Option (List Nat) := do
  return IndexSet.ofList (← vertices.mapM graph.vertexPaths?).flatten

namespace CostModel

variable {α : Type} [Scalar α]

def movers? (graph : Hypergraph α) (solution : Solution) (e target : Nat) : Option (List Nat) := do
  (← graph.hyperedge? e).pins.filterM fun v => do return (← solution[v]?) != target

def fits (current incoming bound : List α) : Bool :=
  ((current.zip incoming).zip bound).all fun ((weight, extra), limit) => weight + extra ≤ limit

def isLegal? (graph : Hypergraph α) (bounds : Balance α) (state : PartitionState α)
    (e target : Nat) : Option Bool := do
  let weights ← (← movers? graph state.solution e target).mapM fun v => do
    return (← graph.vertex? v).weight
  let incoming := weights.foldl addOnto (List.replicate graph.dimensions.vertex 0)
  return fits (← state.blockBalance[target]?) incoming (← bounds[target]?)

def tentative (solution : Solution) (pins : List Nat) (target v : Nat) : Option Nat :=
  if pins.contains v then some target else solution[v]?

variable (model : CostModel α) (graph : Hypergraph α)

def cutGain? (state : PartitionState α) (blockOf : Nat → Option Nat) (gain : α) (e : Nat) :
    Option α := do
  let before : Bool := 1 < (← state.netDegrees[e]?).spanned
  let after ← graph.isCut? blockOf e
  if before = after then
    return gain
  let cost ← model.hyperedgeCost? graph e
  return gain + if before then cost else -cost

def pathGain? (state : PartitionState α) (blockOf : Nat → Option Nat) (gain : α) (p : Nat) :
    Option α := do
  return gain + ((← state.pathCosts[p]?) - (← model.pathCostWith? graph blockOf p))

def gain? (state : PartitionState α) (e target : Nat) : Option (Gain α) := do
  let blockOf := tentative state.solution (← graph.hyperedge? e).pins target
  let moving ← movers? graph state.solution e target
  let cut ← (← graph.touchedHyperedges? moving).foldlM (model.cutGain? graph state blockOf) 0
  let gain ← (← graph.touchedPaths? moving).foldlM (model.pathGain? graph state blockOf) cut
  return ⟨e, some target, gain, ← model.pinNormSum? graph e⟩

end CostModel

def Counting.commit {α : Type} [Scalar α] (counting : Counting) (model : CostModel α)
    (graph : Hypergraph α) (state : PartitionState α) (move : Gain α) :
    Except Fault (α × PartitionState α) := do
  match move.target with
  | none => return (0, state)
  | some target =>
    let moving ← CostModel.movers? graph state.solution move.hyperedge target
    let moved ← moving.foldlM (fun state v => counting.move graph state v target) state
    return (move.gain, ← moved.refresh? model graph (← graph.touchedPaths? moving))

namespace CostModel

variable {α : Type} [Scalar α] (model : CostModel α) (graph : Hypergraph α)

def commit (state : PartitionState α) (move : Gain α) : Except Fault (α × PartitionState α) :=
  Counting.unbounded.commit model graph state move

theorem unbounded_commit : Counting.unbounded.commit model graph = model.commit graph :=
  rfl

end CostModel

end CircuitPartition
