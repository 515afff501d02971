import CircuitPartition.Proofs.Snapshot.Bounds
import CircuitPartition.Proofs.Snapshot.Encoding
import CircuitPartition.Proofs.Snapshot.Format

/-!
Hypergraphs stored as bytes come back as they were, whatever follows the bytes, and do not come back
at all if some of the bytes are missing.
-/

namespace CircuitPartition

namespace Snapshot.Binary

theorem readsBack_doubles {xs : List Double} (h : xs.length < Word.count 64) :
    (list double).ReadsBack xs :=
  readsBack_list h fun x _ => readsBack_double x

theorem readsBack_indices {ns : List Nat} (hlength : ns.length < Word.count 64)
    (h : ∀ n ∈ ns, n < Word.count 64) : (list index).ReadsBack ns :=
  readsBack_list hlength fun n hn => readsBack_index (h n hn)

theorem readsBack_schemaVersion (v : SchemaVersion) : schemaVersion.ReadsBack v := by
  apply readsBack_via rfl
  apply readsBack_pair (readsBack_version v.major)
  exact readsBack_pair (readsBack_version v.minor) (readsBack_version v.patch)

theorem readsBack_dimensions {d : Dimensions} (hvertex : d.vertex < Word.count 64)
    (hhyperedge : d.hyperedge < Word.count 64) (hplacement : d.placement < Word.count 64) :
    dimensions.ReadsBack d := by
  apply readsBack_via rfl
  apply readsBack_pair (readsBack_index hvertex)
  exact readsBack_pair (readsBack_index hhyperedge) (readsBack_index hplacement)

theorem readsBack_vertex {v : Vertex Double} (h : v.Bounded) : vertex.ReadsBack v := by
  apply readsBack_via rfl
  exact readsBack_pair (readsBack_doubles h.weight) (readsBack_doubles h.location)

theorem readsBack_hyperedge {e : Hyperedge Double} (h : e.Bounded) : hyperedge.ReadsBack e := by
  apply readsBack_via rfl
  exact readsBack_pair (readsBack_indices h.pins h.pin) (readsBack_doubles h.weight)

theorem readsBack_path {p : TimingPath Double} (h : p.Bounded) : path.ReadsBack p := by
  apply readsBack_via rfl
  apply readsBack_pair (readsBack_indices h.vertices h.vertex)
  apply readsBack_pair (readsBack_indices h.hyperedges h.hyperedge)
  exact readsBack_pair (readsBack_double p.baseSlack) (readsBack_double p.slack)

theorem readsBack_derived {d : DerivedCosts Double} (h : d.Bounded) : derived.ReadsBack d := by
  apply readsBack_via rfl
  exact readsBack_pair (readsBack_doubles h.pathCosts) (readsBack_doubles h.hyperedgeWeights)

theorem readsBack_timing {t : TimingPayload Double} (h : t.Bounded) : timing.ReadsBack t := by
  apply readsBack_via rfl
  apply readsBack_pair (readsBack_double t.clockPeriod)
  apply readsBack_pair (readsBack_doubles h.baseHyperedgeSlack)
  apply readsBack_pair (readsBack_doubles h.hyperedgeSlack)
  apply readsBack_pair (readsBack_list h.paths fun p hp => readsBack_path (h.path p hp))
  exact readsBack_option fun d hd => readsBack_derived (h.derived d hd)

theorem readsBack_payload {p : Payload Double} (h : p.Bounded) : payload.ReadsBack p := by
  apply readsBack_via rfl
  apply readsBack_pair (readsBack_schemaVersion p.version)
  apply readsBack_pair (readsBack_dimensions h.vertex_dimensions h.hyperedge_dimensions
    h.placement_dimensions)
  apply readsBack_pair (readsBack_list h.vertices fun v hv => readsBack_vertex (h.vertex v hv))
  apply readsBack_pair
    (readsBack_list h.hyperedges fun e he => readsBack_hyperedge (h.hyperedge e he))
  exact readsBack_option fun t ht => readsBack_timing (h.timing t ht)

theorem streams_doubles : (list double).Streams :=
  streams_list streams_double

theorem streams_indices : (list index).Streams :=
  streams_list streams_index

theorem streams_schemaVersion : schemaVersion.Streams := by
  apply streams_via
  exact streams_pair streams_version (streams_pair streams_version streams_version)

theorem streams_dimensions : dimensions.Streams := by
  apply streams_via
  exact streams_pair streams_index (streams_pair streams_index streams_index)

theorem streams_vertex : vertex.Streams := by
  apply streams_via
  exact streams_pair streams_doubles streams_doubles

theorem streams_hyperedge : hyperedge.Streams := by
  apply streams_via
  exact streams_pair streams_indices streams_doubles

theorem streams_path : path.Streams := by
  apply streams_via
  apply streams_pair streams_indices
  exact streams_pair streams_indices (streams_pair streams_double streams_double)

theorem streams_derived : derived.Streams := by
  apply streams_via
  exact streams_pair streams_doubles streams_doubles

theorem streams_timing : timing.Streams := by
  apply streams_via
  apply streams_pair streams_double
  apply streams_pair streams_doubles
  apply streams_pair streams_doubles
  exact streams_pair (streams_list streams_path) (streams_option streams_derived)

theorem streams_payload : payload.Streams := by
  apply streams_via
  apply streams_pair streams_schemaVersion
  apply streams_pair streams_dimensions
  apply streams_pair (streams_list streams_vertex)
  exact streams_pair (streams_list streams_hyperedge) (streams_option streams_timing)

end Snapshot.Binary

namespace Hypergraph

open Snapshot (Payload)

variable {graph : Hypergraph Double}

theorem ofBytes_toBytes_append (h : (Payload.ofGraph graph).Bounded) (more : List UInt8) :
    ofBytes (graph.toBytes ++ more) = (Payload.ofGraph graph).toGraph := by
  unfold ofBytes toBytes
  rw [Snapshot.Binary.readsBack_payload h more]

theorem ofBytes_front (h : (Payload.ofGraph graph).Bounded) {front : List UInt8}
    (hfront : front <+: graph.toBytes) (hne : front ≠ graph.toBytes) :
    ofBytes front = .error (.document .malformedBytes) := by
  have hrefused := (Snapshot.Binary.readsBack_payload h).refuses_front
    Snapshot.Binary.streams_payload hfront hne
  unfold ofBytes
  rw [hrefused]

theorem bytes_read_back (h : graph.ObtainedPlaced) (hfits : graph.Fits)
    (changes : List (Change Double)) :
    (∀ more, ofBytes ((graph.changeAll changes).toBytes ++ more)
        = .ok (graph.changeAll changes)) ∧
      ∀ front, front <+: (graph.changeAll changes).toBytes →
        front ≠ (graph.changeAll changes).toBytes →
        ofBytes front = .error (.document .malformedBytes) := by
  have hbounded := Payload.bounded_ofGraph (h.obtained.reachable.changeAll changes)
    (hfits.changeAll changes)
  constructor
  . intro more
    rw [ofBytes_toBytes_append hbounded]
    exact h.toGraph_ofGraph changes
  . intro front hfront hne
    exact ofBytes_front hbounded hfront hne

theorem bytes_read_back_hop :
    hop.ObtainedPlaced ∧ hop.Fits ∧
      let graph := hop.changeAll [.setDerived ⟨#[.nan], #[.infinity]⟩, .setPathSlack 0 (-1)]
      ofBytes (graph.toBytes ++ [7]) = .ok graph ∧
        ofBytes graph.toBytes.dropLast = .error (.document .malformedBytes) := by
  have h := bytes_read_back obtainedPlaced_hop fits_hop
    [.setDerived ⟨#[.nan], #[.infinity]⟩, .setPathSlack 0 (-1)]
  refine ⟨obtainedPlaced_hop, fits_hop, h.left [7], ?_⟩
  exact h.right _ (List.dropLast_prefix _) (by decide +kernel)

end Hypergraph

end CircuitPartition
