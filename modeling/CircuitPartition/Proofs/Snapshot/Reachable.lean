import CircuitPartition.Proofs.Graph.Reachable
import CircuitPartition.Snapshot.Binary
import CircuitPartition.Snapshot.Text

/-!
Reading a stored hypergraph makes nothing that could not have been built and annotated by hand.
-/

namespace CircuitPartition

namespace Snapshot.Payload

variable {α : Type} [Scalar α] {b next : Builder α}

theorem reachable_addVertices (hb : b.Reachable) {vertices : List (Vertex α)}
    (h : addVertices b vertices = .ok next) : next.Reachable := by
  refine foldlM_induction ?_ hb h
  intro b v _ next hb hnext
  exact hb.addVertex v.weight v.location hnext

theorem reachable_addHyperedges (hb : b.Reachable) {hyperedges : List (Hyperedge α)}
    (h : addHyperedges b hyperedges = .ok next) : next.Reachable := by
  refine foldlM_induction ?_ hb h
  intro b hyperedge _ next hb hnext
  exact hb.addHyperedge hyperedge.pins hyperedge.weight hnext

theorem reachable_addSlacks (hb : b.Reachable) {slacks : List α}
    (h : addSlacks b slacks = .ok next) : next.Reachable := by
  refine foldlM_induction ?_ hb h
  rintro b ⟨slack, e⟩ _ next hb hnext
  exact hb.setHyperedgeSlack e slack hnext

theorem reachable_addPaths (hb : b.Reachable) {paths : List (TimingPath α)}
    (h : addPaths b paths = .ok next) : next.Reachable := by
  refine foldlM_induction ?_ hb h
  intro b path _ next hb hnext
  exact hb.addPath path.vertices path.hyperedges path.baseSlack hnext

variable {payload : Payload α} {graph : Hypergraph α}

theorem reachable_build (h : payload.build = .ok graph) : graph.Reachable := by
  have hempty := (Builder.Reachable.empty (α := α) payload.dimensions.vertex
    payload.dimensions.hyperedge).withPlacementDimensions payload.dimensions.placement
  unfold build at h
  cases ht : payload.timing with
  | none =>
    simp only [ht, bind_eq_ok] at h
    obtain ⟨b, hvertices, b', hhyperedges, hbuild⟩ := h
    exact .build (reachable_addHyperedges (reachable_addVertices hempty hvertices) hhyperedges)
      hbuild
  | some stored =>
    simp only [ht, bind_eq_ok] at h
    obtain ⟨b, hvertices, b', hhyperedges, b'', hslacks, b''', hpaths, hbuild⟩ := h
    have hb := reachable_addHyperedges
      (reachable_addVertices (hempty.withClockPeriod stored.clockPeriod) hvertices) hhyperedges
    exact .build (reachable_addPaths (reachable_addSlacks hb hslacks) hpaths) hbuild

theorem reachable_restoreTiming {stored : TimingPayload α} {timing next : Timing α}
    (hgraph : { graph with timing := some timing }.Reachable)
    (h : restoreTiming stored timing = .ok next) :
    { graph with timing := some next }.Reachable := by
  unfold restoreTiming at h
  simp only [bind_eq_ok] at h
  obtain ⟨slacked, hslacks, pathed, hpaths, h⟩ := h
  have hslacked : { graph with timing := some slacked }.Reachable := by
    refine foldlM_induction (P := fun timing => { graph with timing := some timing }.Reachable) ?_
      hgraph hslacks
    rintro timing ⟨slack, e⟩ _ next hgraph hnext
    have := hgraph.setHyperedgeSlack e slack rfl hnext
    exact this
  have hpathed : { graph with timing := some pathed }.Reachable := by
    refine foldlM_induction (P := fun timing => { graph with timing := some timing }.Reachable) ?_
      hslacked hpaths
    rintro timing ⟨path, p⟩ _ next hgraph hnext
    have := hgraph.setPathSlack p path.slack rfl hnext
    exact this
  split at h
  . next derived _ =>
    have := hpathed.setDerived derived rfl h
    exact this
  . next =>
    rw [pure_eq_ok, Except.ok.injEq] at h
    rw [← h]
    exact hpathed

theorem reachable_toGraph (h : payload.toGraph = .ok graph) : graph.Reachable := by
  unfold toGraph at h
  simp only [throw_eq_error, error_bind] at h
  split at h
  . simp at h
  . simp only [bind_eq_ok, Failure.liftM_graph_eq_ok] at h
    obtain ⟨built, hbuild, h⟩ := h
    have hbuilt := reachable_build hbuild
    split at h
    . next stored timing _ ht =>
      simp only [bind_eq_ok, Failure.liftM_graph_eq_ok, pure_eq_ok, Except.ok.injEq] at h
      obtain ⟨next, hrestore, rfl⟩ := h
      apply reachable_restoreTiming _ hrestore
      rw [← ht]
      exact hbuilt
    . rw [pure_eq_ok, Except.ok.injEq] at h
      rw [← h]
      exact hbuilt

end Snapshot.Payload

namespace Hypergraph

theorem reachable_ofJsonText {text : String} {graph : Hypergraph Double}
    (h : ofJsonText text = .ok graph) : graph.Reachable := by
  unfold ofJsonText at h
  split at h
  . exact Snapshot.Payload.reachable_toGraph h
  . simp at h

theorem reachable_ofBytes {bytes : List UInt8} {graph : Hypergraph Double}
    (h : ofBytes bytes = .ok graph) : graph.Reachable := by
  unfold ofBytes at h
  split at h
  . exact Snapshot.Payload.reachable_toGraph h
  . simp at h

end Hypergraph

end CircuitPartition
