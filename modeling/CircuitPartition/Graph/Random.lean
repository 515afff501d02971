import CircuitPartition.Graph.Builder
import CircuitPartition.Random.Sampler

/-!
Random hypergraphs and solutions. A hypergraph is drawn piece by piece and put together by the
builder; its timing paths are walks from pin to pin.
-/

namespace CircuitPartition

open CircuitPartition.Random (Draw Sampler)

structure RandomShape where
  numVertices : Nat
  numHyperedges : Nat
  maxPins : Nat
  dimensions : Dimensions
  numPaths : Nat
  maxPathLength : Nat
  clockPeriod : Double

def RandomShape.standard : RandomShape where
  numVertices := 64
  numHyperedges := 96
  maxPins := 4
  dimensions := ⟨1, 1, 2⟩
  numPaths := 0
  maxPathLength := 6
  clockPeriod := 10.0

abbrev TryDraw (σ : Type) :=
  ExceptT (Failure Double) (StateM σ)

variable {σ : Type}

def TryDraw.ofResult {β : Type} (result : Except (GraphError Double) β) : TryDraw σ β :=
  ExceptT.mk (return result.mapError .graph)

structure Walk where
  start : Nat
  steps : List (Nat × Nat)

namespace Walk

def vertices (walk : Walk) : List Nat :=
  walk.start :: walk.steps.map (·.2)

def hyperedges (walk : Walk) : List Nat :=
  walk.steps.map (·.1)

def extend (sampler : Sampler σ) (pinsOf : Array (List Nat)) (incident : Array (List Nat)) :
    (n : Nat) → (current : Nat) → StateM σ (List (Nat × Nat))
  | 0, _ => return []
  | n + 1, current => do
    let some e ← sampler.choose (incident.getD current []) | return []
    let some next ← sampler.choose ((pinsOf.getD e []).filter (· != current)) | return []
    return (e, next) :: (← extend sampler pinsOf incident n next)

end Walk

namespace Hypergraph

section

variable (sampler : Sampler σ)

def drawWeight (dimensions highest : Nat) : StateM σ (List Double) :=
  (List.replicate dimensions ()).mapM fun () =>
    return ((1 + (← sampler.below32 highest) : Nat) : Double)

def drawBetween (low high : Double) : TryDraw σ Double := do
  match ← sampler.between? low high with
  | some x => return x
  | none => throw (.fault .emptyRange)

def drawVertex (shape : RandomShape) (b : Builder Double) : TryDraw σ (Builder Double) := do
  let weight ← drawWeight sampler shape.dimensions.vertex 4
  let location ← (List.replicate shape.dimensions.placement ()).mapM
    fun () => drawBetween sampler 0 100.0
  .ofResult (b.addVertex weight location)

def drawHyperedge (shape : RandomShape) (drawn : Builder Double × Array (List Nat)) :
    TryDraw σ (Builder Double × Array (List Nat)) := do
  let maxPins := max 2 (min shape.maxPins shape.numVertices)
  let size := 2 + (← sampler.below64 (maxPins - 1))
  let pins ← sampler.positions shape.numVertices size
  let weight ← drawWeight sampler shape.dimensions.hyperedge 3
  let b ← TryDraw.ofResult (drawn.1.addHyperedge pins weight)
  return (b, drawn.2.push pins)

def drawPath (shape : RandomShape) (pinsOf incident : Array (List Nat))
    (drawn : Builder Double × Array (Option Double)) :
    TryDraw σ (Builder Double × Array (Option Double)) := do
  -- The hyperedges that the path takes get no more slack than the path has.
  let slack ← drawBetween sampler (-0.5 * shape.clockPeriod) shape.clockPeriod
  let start ← sampler.below64 shape.numVertices
  let steps ← Walk.extend sampler pinsOf incident (shape.maxPathLength - 1) start
  let walk : Walk := ⟨start, steps⟩
  let b ← TryDraw.ofResult (drawn.1.addPath walk.vertices walk.hyperedges slack)
  let lower (worst : Option Double) : Option Double :=
    some (worst.elim slack (Scalar.min · slack))
  return (b, walk.hyperedges.foldl (fun worst e => worst.modify e lower) drawn.2)

def annotate (b : Builder Double) (slacks : List (Option Double)) :
    Except (GraphError Double) (Builder Double) :=
  slacks.zipIdx.foldlM
    (fun b (slack, e) => match slack with
      | some slack => b.setHyperedgeSlack e slack
      | none => .ok b) b

def randomFrom (shape : RandomShape) : TryDraw σ (Hypergraph Double) := do
  if shape.numVertices < 2 then
    throw (.graph (.tooFewVertices shape.numVertices))
  let b := (Builder.empty shape.dimensions.vertex shape.dimensions.hyperedge)
    |>.withPlacementDimensions shape.dimensions.placement
  let b := if shape.numPaths = 0 then b else b.withClockPeriod shape.clockPeriod
  let b ← (List.replicate shape.numVertices ()).foldlM (fun b () => drawVertex sampler shape b) b
  let (b, pinsOf) ← (List.replicate shape.numHyperedges ()).foldlM
    (fun drawn () => drawHyperedge sampler shape drawn) (b, #[])
  if shape.numPaths = 0 ∨ shape.numHyperedges = 0 then
    .ofResult b.build
  else
    let incident := IndexSet.invert pinsOf.toList shape.numVertices
    let (b, worst) ← (List.replicate shape.numPaths ()).foldlM
      (fun drawn () => drawPath sampler shape pinsOf incident drawn)
      (b, Array.replicate shape.numHyperedges none)
    .ofResult ((annotate b worst.toList).bind Builder.build)

end

def random (shape : RandomShape) : TryDraw Random.Source (Hypergraph Double) :=
  randomFrom .words shape

end Hypergraph

def Solution.random (numVertices numParts : Nat) : Draw (List Nat) :=
  (List.replicate numVertices ()).mapM fun () => Random.below64 (max numParts 1)

end CircuitPartition
