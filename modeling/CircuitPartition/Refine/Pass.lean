import CircuitPartition.Refine.Move

/-!
One pass of greedy refinement: every cut hyperedge in turn is pulled into the block where that gains
most, if it gains anything.
-/

namespace CircuitPartition

structure RefineLimits where
  -- A pass stops at this many cut hyperedges, the last of which it leaves alone.
  maxMoves : Nat
  maxPasses : Nat
  checkConsistency : Bool
  deriving DecidableEq, Repr

def RefineLimits.standard : RefineLimits :=
  ⟨50, 2, true⟩

structure Pass (α : Type) where
  state : PartitionState α
  visited : Nat
  gain : α
  moves : List (Gain α)
  stoppedAt : Option Nat
  deriving DecidableEq, Repr

namespace CostModel

variable {α : Type} [Scalar α] (model : CostModel α) (graph : Hypergraph α)

def considerTarget? (bounds : Balance α) (state : PartitionState α) (e : Nat) (best : Gain α)
    (target : Nat) : Option (Gain α) := do
  if !(← isLegal? graph bounds state e target) then
    return best
  let candidate ← model.gain? graph state e target
  return if candidate.isBetter best then candidate else best

def bestMove? (bounds : Balance α) (state : PartitionState α) (e : Nat) : Option (Gain α) := do
  (List.range model.numParts).foldlM (model.considerTarget? graph bounds state e)
    (.baseline e (← model.pinNormSum? graph e))

def checkBounds (bounds : Balance α) : Except (PreconditionError α) Unit :=
  if bounds.size ≠ model.numParts ∨ bounds.any (·.length ≠ graph.dimensions.vertex) then
    .error (.boundsShape model.numParts graph.dimensions.vertex bounds.size)
  else
    .ok ()

end CostModel

namespace Counting

variable {α : Type} [Scalar α] (counting : Counting) (model : CostModel α) (graph : Hypergraph α)

def improve (bounds : Balance α) (pass : Pass α) (e : Nat) : Except Fault (Pass α) := do
  let best ← model.bestMove? graph bounds pass.state e
  let (gain, state) ← counting.commit model graph pass.state best
  return { pass with
    state
    visited := pass.visited + 1
    gain := pass.gain + gain
    moves := if best.target.isSome then best :: pass.moves else pass.moves }

def visit (maxMoves : Nat) (bounds : Balance α) : List Nat → Pass α → Except Fault (Pass α)
  | [], pass => return pass
  | e :: es, pass => do
    if (← pass.state.netDegrees[e]?).spanned ≤ 1 then
      visit maxMoves bounds es pass
    else if maxMoves ≤ pass.visited + 1 then
      return { pass with visited := pass.visited + 1, stoppedAt := some e }
    else
      visit maxMoves bounds es (← counting.improve model graph bounds pass e)

def pass (limits : RefineLimits) (bounds : Balance α) (state : PartitionState α) :
    Except (Failure α) (Pass α) := do
  -- Nothing is moved unless all arguments have been found in order.
  model.checkBounds graph bounds
  if limits.checkConsistency then
    state.checkConsistency model graph
  else
    state.checkShape model graph
  counting.visit model graph limits.maxMoves bounds (List.range graph.numHyperedges)
    ⟨state, 0, 0, [], none⟩

end Counting

namespace CostModel

variable {α : Type} [Scalar α] (model : CostModel α) (graph : Hypergraph α)

def improve (bounds : Balance α) (pass : Pass α) (e : Nat) : Except Fault (Pass α) :=
  Counting.unbounded.improve model graph bounds pass e

def visit (maxMoves : Nat) (bounds : Balance α) (es : List Nat) (pass : Pass α) :
    Except Fault (Pass α) :=
  Counting.unbounded.visit model graph maxMoves bounds es pass

def pass (limits : RefineLimits) (bounds : Balance α) (state : PartitionState α) :
    Except (Failure α) (Pass α) :=
  Counting.unbounded.pass model graph limits bounds state

theorem unbounded_visit : Counting.unbounded.visit model graph = model.visit graph :=
  rfl

theorem visit_cons (maxMoves : Nat) (bounds : Balance α) (e : Nat) (es : List Nat) (pass : Pass α) :
    model.visit graph maxMoves bounds (e :: es) pass
      =
    (do
      if (← pass.state.netDegrees[e]?).spanned ≤ 1 then
        model.visit graph maxMoves bounds es pass
      else if maxMoves ≤ pass.visited + 1 then
        return { pass with visited := pass.visited + 1, stoppedAt := some e }
      else
        model.visit graph maxMoves bounds es (← model.improve graph bounds pass e)) :=
  rfl

end CostModel

end CircuitPartition
