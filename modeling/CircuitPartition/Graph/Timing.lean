import CircuitPartition.Graph.Validation

/-!
The only changes that a built hypergraph takes: current slacks and the costs derived from them.
-/

namespace CircuitPartition.Timing

variable {α : Type} [Scalar α]

def setPathSlack (timing : Timing α) (p : Nat) (slack : α) :
    Except (GraphError α) (Timing α) := do
  Entity.path.require p timing.paths.size
  Quantity.pathSlack.requireFinite [slack]
  return { timing with paths := timing.paths.modify p ({ · with slack }) }

def setHyperedgeSlack (timing : Timing α) (e : Nat) (slack : α) :
    Except (GraphError α) (Timing α) := do
  Entity.hyperedge.require e timing.hyperedgeSlack.size
  Quantity.hyperedgeSlack.requireFinite [slack]
  return { timing with hyperedgeSlack := timing.hyperedgeSlack.set! e slack }

def setDerived (timing : Timing α) (derived : DerivedCosts α) :
    Except (GraphError α) (Timing α) :=
  if derived.pathCosts.size = timing.paths.size ∧
      derived.hyperedgeWeights.size = timing.hyperedgeSlack.size then
    .ok { timing with derived := some derived }
  else
    .error <| .derivedLength timing.paths.size derived.pathCosts.size timing.hyperedgeSlack.size
      derived.hyperedgeWeights.size

end CircuitPartition.Timing
