import CircuitPartition.Proofs.Graph.Assembly

/-!
The vectors of a hypergraph against the dimensions that it declares. Weights have them in any case.
Locations are checked against the number of coordinates in force when their vertex is added, and
nothing keeps that number from being changed later on.
-/

namespace CircuitPartition

variable {α : Type} [Scalar α]

structure Builder.Measured (b : Builder α) : Prop where
  vertex_finite : ∀ v ∈ b.vertices,
    (∀ x ∈ v.weight, Scalar.isFinite x = true) ∧ ∀ x ∈ v.location, Scalar.isFinite x = true
  hyperedge_length : ∀ h ∈ b.hyperedges, h.weight.length = b.dimensions.hyperedge
  hyperedge_finite : ∀ h ∈ b.hyperedges, ∀ x ∈ h.weight, Scalar.isFinite x = true

theorem Builder.Reachable.measured {b : Builder α} (h : b.Reachable) : b.Measured := by
  induction h with
  | empty vertex hyperedge => constructor <;> simp [Builder.empty]
  | withPlacementDimensions n _ ih =>
    exact ⟨ih.vertex_finite, ih.hyperedge_length, ih.hyperedge_finite⟩
  | withClockPeriod period _ ih =>
    exact ⟨ih.vertex_finite, ih.hyperedge_length, ih.hyperedge_finite⟩
  | addVertex weight location _ hstep ih =>
    obtain ⟨_, _, hweight, hlocation, rfl⟩ := addVertex_eq_ok.mp hstep
    refine ⟨?_, ih.hyperedge_length, ih.hyperedge_finite⟩
    exact Array.forall_mem_push.mpr ⟨⟨hweight, hlocation⟩, ih.vertex_finite⟩
  | addHyperedge pins weight _ hstep ih =>
    obtain ⟨_, hlength, hfinite, _, rfl⟩ := addHyperedge_eq_ok.mp hstep
    refine ⟨ih.vertex_finite, ?_, ?_⟩
    . exact Array.forall_mem_push.mpr ⟨hlength.symm, ih.hyperedge_length⟩
    . exact Array.forall_mem_push.mpr ⟨hfinite, ih.hyperedge_finite⟩
  | setHyperedgeSlack e slack _ hstep ih =>
    obtain ⟨_, _, rfl⟩ := setHyperedgeSlack_eq_ok.mp hstep
    exact ⟨ih.vertex_finite, ih.hyperedge_length, ih.hyperedge_finite⟩
  | addPath vertices hyperedges slack _ hstep ih =>
    obtain ⟨_, _, _, _, rfl⟩ := addPath_eq_ok.mp hstep
    exact ⟨ih.vertex_finite, ih.hyperedge_length, ih.hyperedge_finite⟩

namespace Hypergraph

structure Measured (graph : Hypergraph α) : Prop where
  vertex_pos : 1 ≤ graph.dimensions.vertex
  hyperedge_pos : 1 ≤ graph.dimensions.hyperedge
  vertex_length : ∀ v ∈ graph.vertices, v.weight.length = graph.dimensions.vertex
  hyperedge_length : ∀ h ∈ graph.hyperedges, h.weight.length = graph.dimensions.hyperedge
  vertex_finite : ∀ v ∈ graph.vertices,
    (∀ x ∈ v.weight, Scalar.isFinite x = true) ∧ ∀ x ∈ v.location, Scalar.isFinite x = true
  hyperedge_finite : ∀ h ∈ graph.hyperedges, ∀ x ∈ h.weight, Scalar.isFinite x = true

def Placed (graph : Hypergraph α) : Prop :=
  ∀ v ∈ graph.vertices, v.location.length = graph.dimensions.placement

instance (graph : Hypergraph α) : Decidable graph.Placed :=
  inferInstanceAs (Decidable (∀ v ∈ graph.vertices, _))

end Hypergraph

namespace Builder

variable {b : Builder α}

theorem Reachable.measured_build (hb : b.Reachable) {graph : Hypergraph α}
    (h : b.build = .ok graph) : graph.Measured := by
  obtain ⟨hvertex, hhyperedge, _, _, rfl⟩ := build_eq_ok.mp h
  have hmeasured := hb.measured
  constructor
  . exact Nat.one_le_iff_ne_zero.mpr hvertex
  . exact Nat.one_le_iff_ne_zero.mpr hhyperedge
  . exact hb.wellFormed.weight_length
  . exact hmeasured.hyperedge_length
  . exact hmeasured.vertex_finite
  . exact hmeasured.hyperedge_finite

theorem Accepts.length_location {weight location : List α}
    (h : b.Accepts (.addVertex weight location)) :
    b.dimensions.placement = location.length := by
  obtain ⟨next, hcall⟩ := h
  obtain ⟨_, hlocation, _, _, _⟩ := addVertex_eq_ok.mp hcall
  exact hlocation

variable {vertexDimensions hyperedgeDimensions : Nat} {calls : List (Call α)}
  {graph : Hypergraph α}

theorem placed_iff (h : (assemble vertexDimensions hyperedgeDimensions calls).build = .ok graph) :
    graph.Placed
      ↔
    ∀ before weight location after, calls = before ++ .addVertex weight location :: after →
      (assemble vertexDimensions hyperedgeDimensions before).Accepts
        (.addVertex weight location) →
      (assemble vertexDimensions hyperedgeDimensions before).dimensions.placement
        = graph.dimensions.placement := by
  obtain ⟨_, _, _, _, rfl⟩ := build_eq_ok.mp h
  constructor
  . intro hplaced before weight location after hcalls haccepts
    rw [haccepts.length_location]
    exact hplaced ⟨weight, location⟩ (mem_vertices_assemble.mpr ⟨before, after, hcalls, haccepts⟩)
  . intro hunchanged v hv
    obtain ⟨before, after, hcalls, haccepts⟩ := mem_vertices_assemble.mp hv
    rw [← haccepts.length_location]
    exact hunchanged before v.weight v.location after hcalls haccepts

def PlacementFirst (vertexDimensions hyperedgeDimensions : Nat) (calls : List (Call α)) : Prop :=
  ∀ before dimensions after, calls = before ++ .withPlacementDimensions dimensions :: after →
    (assemble vertexDimensions hyperedgeDimensions before).vertices = #[]

theorem placed_perform {call : Call α}
    (hb : ∀ v ∈ b.vertices, v.location.length = b.dimensions.placement)
    (hfirst : ∀ dimensions, call = .withPlacementDimensions dimensions → b.vertices = #[]) :
    ∀ v ∈ (b.perform call).vertices,
      v.location.length = (b.perform call).dimensions.placement := by
  unfold perform
  split
  . next next hcall =>
    obtain ⟨dimensions, rfl, rfl⟩ | ⟨weight, location, rfl, hlocation, rfl⟩ |
      ⟨_, hdimensions, hvertices⟩ := call_cases hcall
    . simp [withPlacementDimensions, hfirst dimensions rfl]
    . exact Array.forall_mem_push.mpr ⟨hlocation.symm, hb⟩
    . rw [hdimensions, hvertices]
      exact hb
  . exact hb

theorem placed_assemble (h : PlacementFirst vertexDimensions hyperedgeDimensions calls) :
    ∀ v ∈ (assemble vertexDimensions hyperedgeDimensions calls).vertices,
      v.location.length
        = (assemble vertexDimensions hyperedgeDimensions calls).dimensions.placement := by
  -- The history of the last call is all that comes before it.
  induction calls using List.reverseRecOn with
  | nil => simp [assemble, performAll, empty]
  | append_singleton calls call ih =>
    have hlast : assemble vertexDimensions hyperedgeDimensions (calls ++ [call])
        = (assemble vertexDimensions hyperedgeDimensions calls).perform call := by
      simp [assemble, performAll]
    rw [hlast]
    apply placed_perform
    . apply ih
      rintro before dimensions after rfl
      exact h before dimensions (after ++ [call]) (by simp)
    . rintro dimensions rfl
      exact h calls dimensions [] rfl

end Builder

theorem build_measured {vertexDimensions hyperedgeDimensions : Nat} {calls : List (Builder.Call α)}
    {graph : Hypergraph α}
    (h : (Builder.assemble vertexDimensions hyperedgeDimensions calls).build = .ok graph) :
    graph.dimensions.vertex = vertexDimensions ∧
      graph.dimensions.hyperedge = hyperedgeDimensions ∧ graph.Measured ∧
      (graph.Placed
        ↔
      ∀ before weight location after, calls = before ++ .addVertex weight location :: after →
        (Builder.assemble vertexDimensions hyperedgeDimensions before).Accepts
          (.addVertex weight location) →
        (Builder.assemble vertexDimensions hyperedgeDimensions before).dimensions.placement
          = graph.dimensions.placement) := by
  have hdimensions := Builder.dimensions_performAll (.empty vertexDimensions hyperedgeDimensions)
    calls
  have hmeasured := (Builder.reachable_assemble vertexDimensions hyperedgeDimensions
    calls).measured_build h
  have hplaced := Builder.placed_iff h
  obtain ⟨_, _, _, _, rfl⟩ := Builder.build_eq_ok.mp h
  exact ⟨hdimensions.left, hdimensions.right, hmeasured, hplaced⟩

def Hypergraph.lone : Hypergraph ℚ where
  dimensions := ⟨1, 1, 2⟩
  vertices := #[⟨[1], [3, 4]⟩]
  hyperedges := #[⟨[0], [1]⟩]
  vertexHyperedges := #[[0]]
  timing := none

theorem build_measured_lone :
    (Builder.assemble (α := ℚ) 1 1 [.withPlacementDimensions 2, .addVertex [1] [3, 4],
        .addVertex [1] [], .addHyperedge [0, 0] [1]]).build = .ok .lone ∧
      Hypergraph.lone.Measured := by
  have hbuild : (Builder.assemble (α := ℚ) 1 1 [.withPlacementDimensions 2, .addVertex [1] [3, 4],
      .addVertex [1] [], .addHyperedge [0, 0] [1]]).build = .ok .lone := by
    decide +kernel
  obtain ⟨_, _, hmeasured, _⟩ := build_measured hbuild
  exact ⟨hbuild, hmeasured⟩

def Hypergraph.misplaced : Hypergraph ℚ where
  dimensions := ⟨1, 1, 2⟩
  vertices := #[⟨[1], []⟩]
  hyperedges := #[]
  vertexHyperedges := #[[]]
  timing := none

theorem not_placed_misplaced :
    (Builder.assemble (α := ℚ) 1 1 [.addVertex [1] [], .withPlacementDimensions 2]).build
        = .ok .misplaced ∧
      ¬Hypergraph.misplaced.Placed := by
  constructor
  . decide +kernel
  . decide

end CircuitPartition
