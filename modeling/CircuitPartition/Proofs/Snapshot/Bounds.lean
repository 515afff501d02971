import CircuitPartition.Proofs.Graph.Changes
import CircuitPartition.Snapshot.Payload

/-!
Numbers of 64 bits are enough for every index and every length in a payload that has been made of a
hypergraph, if they are enough to count what the hypergraph has in its lists.
-/

namespace CircuitPartition

variable {α : Type}

structure Vertex.Bounded (v : Vertex α) : Prop where
  weight : v.weight.length < Word.count 64
  location : v.location.length < Word.count 64

structure Hyperedge.Bounded (h : Hyperedge α) : Prop where
  pins : h.pins.length < Word.count 64
  pin : ∀ v ∈ h.pins, v < Word.count 64
  weight : h.weight.length < Word.count 64

structure TimingPath.Bounded (path : TimingPath α) : Prop where
  vertices : path.vertices.length < Word.count 64
  vertex : ∀ v ∈ path.vertices, v < Word.count 64
  hyperedges : path.hyperedges.length < Word.count 64
  hyperedge : ∀ e ∈ path.hyperedges, e < Word.count 64

structure DerivedCosts.Bounded (derived : DerivedCosts α) : Prop where
  pathCosts : derived.pathCosts.size < Word.count 64
  hyperedgeWeights : derived.hyperedgeWeights.size < Word.count 64

namespace Snapshot

structure TimingPayload.Bounded (stored : TimingPayload α) : Prop where
  baseHyperedgeSlack : stored.baseHyperedgeSlack.length < Word.count 64
  hyperedgeSlack : stored.hyperedgeSlack.length < Word.count 64
  paths : stored.paths.length < Word.count 64
  path : ∀ path ∈ stored.paths, path.Bounded
  derived : ∀ derived, stored.derived = some derived → derived.Bounded

structure Payload.Bounded (payload : Payload α) : Prop where
  vertex_dimensions : payload.dimensions.vertex < Word.count 64
  hyperedge_dimensions : payload.dimensions.hyperedge < Word.count 64
  placement_dimensions : payload.dimensions.placement < Word.count 64
  vertices : payload.vertices.length < Word.count 64
  vertex : ∀ v ∈ payload.vertices, v.Bounded
  hyperedges : payload.hyperedges.length < Word.count 64
  hyperedge : ∀ h ∈ payload.hyperedges, h.Bounded
  timing : ∀ stored, payload.timing = some stored → stored.Bounded

theorem TimingPayload.bounded_ofTiming {vertices hyperedges : Nat} {timing : Timing α}
    (h : timing.WellFormed vertices hyperedges) (hfits : timing.Fits)
    (hvertices : vertices < Word.count 64) (hhyperedges : hyperedges < Word.count 64) :
    (ofTiming timing).Bounded where
  baseHyperedgeSlack := lt_of_eq_of_lt h.baseHyperedgeSlack_size hhyperedges
  hyperedgeSlack := lt_of_eq_of_lt h.hyperedgeSlack_size hhyperedges
  paths := hfits.paths
  path := by
    intro path hpath
    rw [ofTiming, Array.mem_toList_iff] at hpath
    obtain ⟨hlength, hlength'⟩ := hfits.path path hpath
    refine ⟨hlength, ?_, hlength', ?_⟩
    . intro v hv
      exact Nat.lt_trans ((h.path_vertices path hpath).right v hv) hvertices
    . intro e he
      exact Nat.lt_trans (h.path_hyperedges path hpath e he) hhyperedges
  derived := by
    intro derived hderived
    obtain ⟨hcosts, hweights⟩ := h.derived derived hderived
    exact ⟨lt_of_eq_of_lt hcosts hfits.paths, lt_of_eq_of_lt hweights hhyperedges⟩

theorem Payload.bounded_ofGraph [Scalar α] {graph : Hypergraph α} (h : graph.Reachable)
    (hfits : graph.Fits) : (ofGraph graph).Bounded where
  vertex_dimensions := hfits.vertex_dimensions
  hyperedge_dimensions := hfits.hyperedge_dimensions
  placement_dimensions := hfits.placement_dimensions
  vertices := hfits.numVertices
  vertex := by
    intro v hv
    rw [ofGraph, Array.mem_toList_iff] at hv
    constructor
    . exact lt_of_eq_of_lt (h.measured.vertex_length v hv) hfits.vertex_dimensions
    . exact hfits.location v hv
  hyperedges := hfits.numHyperedges
  hyperedge := by
    intro hyperedge he
    rw [ofGraph, Array.mem_toList_iff] at he
    have hlt := h.wellFormed.pins_lt hyperedge he
    have hlength := h.wellFormed.pins_length_le he
    refine ⟨Nat.lt_of_le_of_lt hlength hfits.numVertices, ?_, ?_⟩
    . intro v hv
      exact Nat.lt_trans (hlt v hv) hfits.numVertices
    . exact lt_of_eq_of_lt (h.measured.hyperedge_length hyperedge he)
        hfits.hyperedge_dimensions
  timing := by
    intro stored hstored
    obtain ⟨timing, ht, rfl⟩ := Option.map_eq_some_iff.mp hstored
    exact TimingPayload.bounded_ofTiming (h.wellFormed.timing timing ht)
      (hfits.timing timing ht) hfits.numVertices hfits.numHyperedges

end Snapshot

end CircuitPartition
