import CircuitPartition.Graph.Validation

/-!
Step by step assembly of a hypergraph. Every step checks what it is given against what is there;
`Builder.build` checks what only the whole can show.
-/

namespace CircuitPartition

structure Builder (α : Type) where
  dimensions : Dimensions
  clockPeriod : Option α
  vertices : Array (Vertex α)
  hyperedges : Array (Hyperedge α)
  hyperedgeSlack : Array (Option α)
  paths : Array (TimingPath α)
  deriving DecidableEq, Repr

namespace Builder

variable {α : Type}

def empty (vertexDimensions hyperedgeDimensions : Nat) : Builder α where
  dimensions := ⟨vertexDimensions, hyperedgeDimensions, 0⟩
  clockPeriod := none
  vertices := #[]
  hyperedges := #[]
  hyperedgeSlack := #[]
  paths := #[]

def withPlacementDimensions (b : Builder α) (dimensions : Nat) : Builder α :=
  { b with dimensions := { b.dimensions with placement := dimensions } }

def withClockPeriod (b : Builder α) (period : α) : Builder α :=
  { b with clockPeriod := some period }

variable [Scalar α]

def addVertex (b : Builder α) (weight location : List α) : Except (GraphError α) (Builder α) := do
  Quantity.vertexWeight.requireDimensions b.dimensions.vertex weight.length
  Quantity.placement.requireDimensions b.dimensions.placement location.length
  Quantity.vertexWeight.requireFinite weight
  Quantity.placement.requireFinite location
  return { b with vertices := b.vertices.push ⟨weight, location⟩ }

def addHyperedge (b : Builder α) (pins : List Nat) (weight : List α) :
    Except (GraphError α) (Builder α) := do
  -- Repeated pins count once.
  if pins.isEmpty then
    throw (.emptyHyperedge b.hyperedges.size)
  Quantity.hyperedgeWeight.requireDimensions b.dimensions.hyperedge weight.length
  Quantity.hyperedgeWeight.requireFinite weight
  pins.forM (Entity.vertex.require · b.vertices.size)
  return { b with
    hyperedges := b.hyperedges.push ⟨IndexSet.ofList pins, weight⟩
    hyperedgeSlack := b.hyperedgeSlack.push none }

def setHyperedgeSlack (b : Builder α) (e : Nat) (slack : α) :
    Except (GraphError α) (Builder α) := do
  Entity.hyperedge.require e b.hyperedges.size
  Quantity.hyperedgeSlack.requireFinite [slack]
  return { b with hyperedgeSlack := b.hyperedgeSlack.set! e (some slack) }

def requireAttached (b : Builder α) (vertices : List Nat) (e : Nat) :
    Except (GraphError α) Unit := do
  Entity.hyperedge.require e b.hyperedges.size
  let pins := (b.hyperedges[e]?.map (·.pins)).getD []
  if !vertices.any pins.contains then
    throw (.detachedHyperedge b.paths.size e)

def addPath (b : Builder α) (vertices hyperedges : List Nat) (slack : α) :
    Except (GraphError α) (Builder α) := do
  if vertices.isEmpty then
    throw (.emptyPath b.paths.size)
  Quantity.pathSlack.requireFinite [slack]
  vertices.forM (Entity.vertex.require · b.vertices.size)
  hyperedges.forM (b.requireAttached vertices)
  return { b with paths := b.paths.push ⟨vertices, hyperedges, slack, slack⟩ }

def hasAnnotations (b : Builder α) : Bool :=
  !b.paths.isEmpty || b.hyperedgeSlack.any Option.isSome

def timing (b : Builder α) (period : α) : Timing α :=
  -- Without a slack of its own a hyperedge has the whole clock period to spare.
  let slack := b.hyperedgeSlack.map (·.getD period)
  { clockPeriod := period
    baseHyperedgeSlack := slack
    hyperedgeSlack := slack
    paths := b.paths
    vertexPaths := IndexSet.invert (b.paths.toList.map (·.vertices)) b.vertices.size
    hyperedgePaths := IndexSet.invert (b.paths.toList.map (·.hyperedges)) b.hyperedges.size
    derived := none }

def timing? (b : Builder α) : Except (GraphError α) (Option (Timing α)) :=
  match b.clockPeriod with
  | none => if b.hasAnnotations then .error .missingClockPeriod else .ok none
  | some period =>
    if Scalar.isFinite period ∧ 0 < period then
      .ok (some (b.timing period))
    else
      .error (.invalidClockPeriod period)

def build (b : Builder α) : Except (GraphError α) (Hypergraph α) := do
  if b.dimensions.vertex = 0 ∨ b.dimensions.hyperedge = 0 then
    throw (.zeroDimensions b.dimensions.vertex b.dimensions.hyperedge)
  let timing ← b.timing?
  return {
    dimensions := b.dimensions
    vertices := b.vertices
    hyperedges := b.hyperedges
    vertexHyperedges := IndexSet.invert (b.hyperedges.toList.map (·.pins)) b.vertices.size
    timing }

end Builder

end CircuitPartition
