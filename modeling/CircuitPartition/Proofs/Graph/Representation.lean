import CircuitPartition.Proofs.Graph.Annotation
import CircuitPartition.Proofs.Graph.Assembly
import CircuitPartition.Proofs.Graph.Incidence
import CircuitPartition.Proofs.Snapshot.Reachable

/-!
What queries and refinement may rely on in every hypergraph, however it has been obtained and
whatever has happened to its slacks and derived costs since.
-/

namespace CircuitPartition

variable {α : Type} [Scalar α]

inductive Change (α : Type) where
  | setPathSlack (p : Nat) (slack : α)
  | setHyperedgeSlack (e : Nat) (slack : α)
  | setDerived (derived : DerivedCosts α)
  | initializeTiming (model : CostModel α)
  | updateTiming (model : CostModel α) (solution : Solution)
  deriving DecidableEq, Repr

namespace Hypergraph

def retime (graph : Hypergraph α) (set : Timing α → Except (GraphError α) (Timing α)) :
    Hypergraph α :=
  match graph.timing with
  | none => graph
  | some timing =>
    match set timing with
    | .ok next => { graph with timing := some next }
    | .error _ => graph

def change (graph : Hypergraph α) : Change α → Hypergraph α
  | .setPathSlack p slack => graph.retime (·.setPathSlack p slack)
  | .setHyperedgeSlack e slack => graph.retime (·.setHyperedgeSlack e slack)
  | .setDerived derived => graph.retime (·.setDerived derived)
  | .initializeTiming model =>
    match model.initializeTiming graph with
    | .ok next => next
    | .error _ => graph
  -- An update that is refused halfway has changed some slacks.
  | .updateTiming model solution => (model.updateTiming graph solution).graph

def changeAll (graph : Hypergraph α) (changes : List (Change α)) : Hypergraph α :=
  changes.foldl change graph

variable {graph : Hypergraph α}

theorem Reachable.retime (h : graph.Reachable)
    {set : Timing α → Except (GraphError α) (Timing α)}
    (hset : ∀ timing next, graph.timing = some timing → set timing = .ok next →
      { graph with timing := some next }.Reachable) :
    (graph.retime set).Reachable := by
  unfold Hypergraph.retime
  split
  . exact h
  . next timing ht =>
    split
    . next next hnext => exact hset timing next ht hnext
    . exact h

theorem Reachable.change (h : graph.Reachable) (change : Change α) :
    (graph.change change).Reachable := by
  cases change with
  | setPathSlack p slack => exact h.retime fun _ _ ht hset => h.setPathSlack p slack ht hset
  | setHyperedgeSlack e slack =>
    exact h.retime fun _ _ ht hset => h.setHyperedgeSlack e slack ht hset
  | setDerived derived => exact h.retime fun _ _ ht hset => h.setDerived derived ht hset
  | initializeTiming model =>
    unfold Hypergraph.change
    dsimp only
    split
    . next next hnext => exact h.initializeTiming model hnext
    . exact h
  | updateTiming model solution => exact h.updateTiming model solution

theorem Reachable.changeAll (h : graph.Reachable) (changes : List (Change α)) :
    (graph.changeAll changes).Reachable := by
  unfold Hypergraph.changeAll
  induction changes generalizing graph with
  | nil => exact h
  | cons change changes ih => exact ih (h.change change)

/--
Pins are sets within bounds, every index gives for a vertex or hyperedge the set of what lists it,
and the timing is within bounds, finite, and attached to the hyperedges.
-/
structure Sound (graph : Hypergraph α) : Prop where
  pins_ne_nil : ∀ h ∈ graph.hyperedges, h.pins ≠ []
  pins_pairwise : ∀ h ∈ graph.hyperedges, h.pins.Pairwise (· < ·)
  pins_lt : ∀ h ∈ graph.hyperedges, ∀ v ∈ h.pins, v < graph.numVertices
  vertexHyperedges : IndexSet.Inverts graph.vertexHyperedges? graph.numVertices graph.pins
  vertexPaths : IndexSet.Inverts graph.vertexPaths? graph.numVertices graph.walk
  hyperedgePaths : IndexSet.Inverts graph.hyperedgePaths? graph.numHyperedges graph.traversed
  timing_wellFormed : ∀ timing, graph.timing = some timing →
    timing.WellFormed graph.numVertices graph.numHyperedges
  timing_annotated : ∀ timing, graph.timing = some timing → timing.Annotated graph.hyperedges

theorem Reachable.sound (h : graph.Reachable) : graph.Sound where
  pins_ne_nil := h.wellFormed.pins_ne_nil
  pins_pairwise := h.wellFormed.pins_pairwise
  pins_lt := h.wellFormed.pins_lt
  vertexHyperedges := h.wellFormed.inverts_vertexHyperedges
  vertexPaths := h.wellFormed.inverts_vertexPaths
  hyperedgePaths := h.wellFormed.inverts_hyperedgePaths
  timing_wellFormed := h.wellFormed.timing
  timing_annotated := h.annotated

inductive Obtained : Hypergraph Double → Prop where
  | build {graph : Hypergraph Double} (vertexDimensions hyperedgeDimensions : Nat)
    (calls : List (Builder.Call Double)) :
    (Builder.assemble vertexDimensions hyperedgeDimensions calls).build = .ok graph →
    Obtained graph
  | ofJsonText {graph : Hypergraph Double} (text : String) :
    ofJsonText text = .ok graph → Obtained graph
  | ofBytes {graph : Hypergraph Double} (bytes : List UInt8) :
    ofBytes bytes = .ok graph → Obtained graph

theorem Obtained.reachable {graph : Hypergraph Double} (h : graph.Obtained) : graph.Reachable := by
  cases h with
  | build vertexDimensions hyperedgeDimensions calls hbuild =>
    exact .build (Builder.reachable_assemble vertexDimensions hyperedgeDimensions calls) hbuild
  | ofJsonText text hread => exact reachable_ofJsonText hread
  | ofBytes bytes hread => exact reachable_ofBytes hread

theorem sound_changeAll {graph : Hypergraph Double} (h : graph.Obtained)
    (changes : List (Change Double)) : (graph.changeAll changes).Sound :=
  (h.reachable.changeAll changes).sound

def thereAndBack : Hypergraph Double where
  dimensions := ⟨1, 1, 0⟩
  vertices := #[⟨[1], []⟩, ⟨[1], []⟩]
  hyperedges := #[⟨[0, 1], [1]⟩]
  vertexHyperedges := #[[0], [0]]
  timing := some {
    clockPeriod := 4.0
    baseHyperedgeSlack := #[4.0]
    hyperedgeSlack := #[4.0]
    paths := #[⟨[0, 1, 0], [0, 0], 3.0, 3.0⟩]
    vertexPaths := #[[0], [0]]
    hyperedgePaths := #[[0]]
    derived := none }

theorem obtained_thereAndBack : thereAndBack.Obtained :=
  .build 1 1 [.withClockPeriod 4.0, .addVertex [1] [], .addVertex [1] [], .addHyperedge [0, 1] [1],
    .addPath [0, 1, 0] [0, 0] 3.0] (by decide +kernel)

theorem sound_changeAll_thereAndBack :
    thereAndBack.Obtained ∧
      (thereAndBack.changeAll [.setPathSlack 0 1.0, .setPathSlack 0 .nan,
        .updateTiming .standard #[0, 1]]).Sound := by
  have h : thereAndBack.Obtained :=
    .build 1 1 [.addVertex [1] [], .withClockPeriod 4.0, .addVertex [1, 1] [], .addVertex [1] [],
      .addHyperedge [1, 0, 1] [1], .addPath [1] [5] 3.0, .addPath [0, 1, 0] [0, 0] 3.0]
      (by decide +kernel)
  exact ⟨h, sound_changeAll h _⟩

end Hypergraph

end CircuitPartition
