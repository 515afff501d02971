import CircuitPartition.Proofs.Graph.Changes
import CircuitPartition.Proofs.Snapshot.Completion

/-!
A hypergraph that has been assembled, with all its vertices placed, passes the checks of the builder
once more when it is read, and is what is read.
-/

namespace CircuitPartition

variable {α : Type}

namespace Snapshot

namespace TimingPayload

theorem indexed_ofTiming {vertices hyperedges : Nat} {timing : Timing α}
    (h : timing.WellFormed vertices hyperedges) :
    (ofTiming timing).indexed vertices hyperedges = timing := by
  simp [indexed, ofTiming, ← h.vertexPaths_eq, ← h.hyperedgePaths_eq]

theorem covers_ofTiming {vertices hyperedges : Nat} {timing : Timing α}
    (h : timing.WellFormed vertices hyperedges) : (ofTiming timing).Covers hyperedges := by
  constructor
  . exact h.baseHyperedgeSlack_size
  . exact h.hyperedgeSlack_size

theorem acceptable_ofTiming [Scalar α] {graph : Hypergraph α} {timing : Timing α}
    (h : timing.WellFormed graph.numVertices graph.numHyperedges)
    (hannotated : timing.Annotated graph.hyperedges) :
    (ofTiming timing).Acceptable graph.vertices.toList.length graph.hyperedges.toList where
  clockPeriod_finite := hannotated.clockPeriod_finite
  clockPeriod_pos := hannotated.clockPeriod_pos
  length_baseHyperedgeSlack := Nat.le_of_eq h.baseHyperedgeSlack_size
  baseHyperedgeSlack_finite := by simpa [ofTiming] using hannotated.baseHyperedgeSlack_finite
  length_hyperedgeSlack := Nat.le_of_eq h.hyperedgeSlack_size
  hyperedgeSlack_finite := by simpa [ofTiming] using hannotated.hyperedgeSlack_finite
  path := by
    intro path hpath
    rw [ofTiming, Array.mem_toList_iff] at hpath
    obtain ⟨hne, hlt⟩ := h.path_vertices path hpath
    exact ⟨hne, (hannotated.path_finite path hpath).left, hlt,
      hannotated.path_meets path hpath⟩
  path_finite := by
    intro path hpath
    rw [ofTiming, Array.mem_toList_iff] at hpath
    exact (hannotated.path_finite path hpath).right
  derived := h.derived

end TimingPayload

namespace Payload

variable {graph : Hypergraph α}

theorem indexed_ofGraph (h : graph.WellFormed) : (ofGraph graph).indexed = graph := by
  have htiming : (graph.timing.map TimingPayload.ofTiming).map
      (·.indexed graph.numVertices graph.numHyperedges) = graph.timing := by
    cases ht : graph.timing with
    | none => rfl
    | some timing => exact congrArg some (TimingPayload.indexed_ofTiming (h.timing timing ht))
  calc (ofGraph graph).indexed
      = { graph with
          vertexHyperedges :=
            IndexSet.invert (graph.hyperedges.toList.map (·.pins)) graph.numVertices
          timing := (graph.timing.map TimingPayload.ofTiming).map
            (·.indexed graph.numVertices graph.numHyperedges) } := rfl
    _ = graph := by rw [htiming, ← h.vertexHyperedges_eq]

theorem canonical_ofGraph (h : graph.WellFormed) : (ofGraph graph).canonical = ofGraph graph := by
  have hpins : graph.hyperedges.toList.map (·.canonical) = graph.hyperedges.toList := by
    rw [List.map_congr_left (g := id), List.map_id]
    intro hyperedge hmem
    rw [Array.mem_toList_iff] at hmem
    unfold Hyperedge.canonical
    rw [IndexSet.ofList_of_pairwise (h.pins_pairwise hyperedge hmem)]
    rfl
  unfold canonical ofGraph
  rw [hpins]

theorem covers_ofGraph (h : graph.WellFormed) : ∀ stored, (ofGraph graph).timing = some stored →
    stored.Covers (ofGraph graph).hyperedges.length := by
  intro stored hstored
  obtain ⟨timing, ht, rfl⟩ := Option.map_eq_some_iff.mp hstored
  exact TimingPayload.covers_ofTiming (h.timing timing ht)

theorem completed_ofGraph (h : graph.WellFormed) : (ofGraph graph).completed = ofGraph graph := by
  have hcovers := covers_ofGraph h
  rw [(completed_eq_canonical ?_).mpr hcovers, canonical_ofGraph h]
  intro stored hstored
  obtain ⟨hbase, hslack⟩ := hcovers stored hstored
  exact ⟨Nat.le_of_eq hbase, Nat.le_of_eq hslack⟩

variable [Scalar α]

theorem acceptable_ofGraph (h : graph.Reachable) (hplaced : graph.Placed) :
    (ofGraph graph).Acceptable where
  version := SchemaVersion.reads_self .current
  vertex_ne_zero := Nat.one_le_iff_ne_zero.mp h.measured.vertex_pos
  hyperedge_ne_zero := Nat.one_le_iff_ne_zero.mp h.measured.hyperedge_pos
  vertex := by
    intro v hv
    rw [ofGraph, Array.mem_toList_iff] at hv
    obtain ⟨hweight, hlocation⟩ := h.measured.vertex_finite v hv
    exact ⟨(h.measured.vertex_length v hv).symm, (hplaced v hv).symm, hweight, hlocation⟩
  hyperedge := by
    intro e he
    rw [ofGraph, Array.mem_toList_iff] at he
    exact ⟨h.wellFormed.pins_ne_nil e he, (h.measured.hyperedge_length e he).symm,
      h.measured.hyperedge_finite e he, h.wellFormed.pins_lt e he⟩
  timing := by
    intro stored hstored
    obtain ⟨timing, ht, rfl⟩ := Option.map_eq_some_iff.mp hstored
    exact TimingPayload.acceptable_ofTiming (h.wellFormed.timing timing ht)
      (h.annotated timing ht)

theorem toGraph_ofGraph (h : graph.Reachable) (hplaced : graph.Placed) :
    (ofGraph graph).toGraph = .ok graph := by
  rw [toGraph_eq_ok, completed_ofGraph h.wellFormed]
  exact ⟨acceptable_ofGraph h hplaced, indexed_ofGraph h.wellFormed⟩

theorem placed_toGraph {payload : Payload α} (h : payload.toGraph = .ok graph) : graph.Placed := by
  obtain ⟨haccepted, rfl⟩ := toGraph_eq_ok.mp h
  intro v hv
  rw [indexed, List.mem_toArray] at hv
  exact (haccepted.vertex v hv).right.left.symm

end Payload

end Snapshot

namespace Hypergraph

/--
Hypergraphs as in `Obtained`, with the number of coordinates set before the first vertex where they
come out of a builder.
-/
inductive ObtainedPlaced : Hypergraph Double → Prop where
  | build {graph : Hypergraph Double} (vertexDimensions hyperedgeDimensions : Nat)
    (calls : List (Builder.Call Double)) :
    Builder.PlacementFirst vertexDimensions hyperedgeDimensions calls →
    (Builder.assemble vertexDimensions hyperedgeDimensions calls).build = .ok graph →
    ObtainedPlaced graph
  | ofJsonText {graph : Hypergraph Double} (text : String) :
    ofJsonText text = .ok graph → ObtainedPlaced graph
  | ofBytes {graph : Hypergraph Double} (bytes : List UInt8) :
    ofBytes bytes = .ok graph → ObtainedPlaced graph

variable {graph : Hypergraph Double}

theorem ObtainedPlaced.obtained (h : graph.ObtainedPlaced) : graph.Obtained := by
  cases h with
  | build vertexDimensions hyperedgeDimensions calls _ hbuild =>
    exact .build vertexDimensions hyperedgeDimensions calls hbuild
  | ofJsonText text hread => exact .ofJsonText text hread
  | ofBytes bytes hread => exact .ofBytes bytes hread

theorem ObtainedPlaced.placed (h : graph.ObtainedPlaced) : graph.Placed := by
  cases h with
  | build vertexDimensions hyperedgeDimensions calls hfirst hbuild =>
    obtain ⟨_, _, _, _, rfl⟩ := Builder.build_eq_ok.mp hbuild
    exact Builder.placed_assemble hfirst
  | ofJsonText text hread =>
    unfold Hypergraph.ofJsonText at hread
    split at hread
    . exact Snapshot.Payload.placed_toGraph hread
    . simp at hread
  | ofBytes bytes hread =>
    unfold Hypergraph.ofBytes at hread
    split at hread
    . exact Snapshot.Payload.placed_toGraph hread
    . simp at hread

theorem ObtainedPlaced.toGraph_ofGraph (h : graph.ObtainedPlaced)
    (changes : List (Change Double)) :
    (Snapshot.Payload.ofGraph (graph.changeAll changes)).toGraph
      = .ok (graph.changeAll changes) :=
  Snapshot.Payload.toGraph_ofGraph (h.obtained.reachable.changeAll changes)
    (h.placed.changeAll changes)

def hop : Hypergraph Double where
  dimensions := ⟨1, 1, 1⟩
  vertices := #[⟨[1], [0.5]⟩, ⟨[1], [-3.0]⟩]
  hyperedges := #[⟨[0, 1], [1]⟩]
  vertexHyperedges := #[[0], [0]]
  timing := some {
    clockPeriod := 4.0
    baseHyperedgeSlack := #[4.0]
    hyperedgeSlack := #[4.0]
    paths := #[⟨[0, 1], [0], 3.0, 3.0⟩]
    vertexPaths := #[[0], [0]]
    hyperedgePaths := #[[0]]
    derived := none }

theorem obtainedPlaced_hop : hop.ObtainedPlaced := by
  refine .build 1 1 [.withPlacementDimensions 1, .withClockPeriod 4.0, .addVertex [1] [0.5],
    .addVertex [1] [-3.0], .addHyperedge [1, 0] [1], .addPath [0, 1] [0] 3.0] ?_ (by decide +kernel)
  intro before dimensions after hcalls
  cases before with
  | nil => rfl
  | cons first before =>
    -- No other call sets the number of coordinates.
    have hmem : .withPlacementDimensions dimensions ∈ before ++ .withPlacementDimensions dimensions
        :: after := by simp
    rw [List.cons_append, List.cons.injEq] at hcalls
    rw [← hcalls.right] at hmem
    simp at hmem

theorem fits_hop : hop.Fits := by
  refine ⟨by decide, by decide, by decide, by decide, by decide, by decide, ?_⟩
  rintro _ ⟨rfl⟩
  exact ⟨by decide, by decide⟩

end Hypergraph

end CircuitPartition
