import CircuitPartition.Graph.Builder
import CircuitPartition.Graph.Timing
import CircuitPartition.Proofs.Lookup

/-!
The steps of building and annotating a hypergraph, each as what it asks for and what it changes.
-/

namespace CircuitPartition

variable {α : Type} [Scalar α]

namespace Builder

variable {b next : Builder α}

theorem addVertex_eq_ok {weight location : List α} :
    b.addVertex weight location = .ok next
      ↔
    b.dimensions.vertex = weight.length ∧ b.dimensions.placement = location.length ∧
      (∀ x ∈ weight, Scalar.isFinite x = true) ∧ (∀ x ∈ location, Scalar.isFinite x = true) ∧
      { b with vertices := b.vertices.push ⟨weight, location⟩ } = next := by
  unfold addVertex
  simp only [check_bind_eq_ok, Quantity.requireDimensions_eq_ok, Quantity.requireFinite_eq_ok,
    pure_eq_ok, Except.ok.injEq]

theorem addHyperedge_eq_ok {pins : List Nat} {weight : List α} :
    b.addHyperedge pins weight = .ok next
      ↔
    pins ≠ [] ∧ b.dimensions.hyperedge = weight.length ∧
      (∀ x ∈ weight, Scalar.isFinite x = true) ∧ (∀ v ∈ pins, v < b.vertices.size) ∧
      { b with
        hyperedges := b.hyperedges.push ⟨IndexSet.ofList pins, weight⟩
        hyperedgeSlack := b.hyperedgeSlack.push none } = next := by
  unfold addHyperedge
  simp only [throw_eq_error, error_bind]
  split
  . next hempty => simp_all
  . next hne =>
    simp only [check_bind_eq_ok, Quantity.requireDimensions_eq_ok, Quantity.requireFinite_eq_ok,
      forM_eq_ok, Entity.require_eq_ok, pure_eq_ok, Except.ok.injEq]
    simp_all

theorem setHyperedgeSlack_eq_ok {e : Nat} {slack : α} :
    b.setHyperedgeSlack e slack = .ok next
      ↔
    e < b.hyperedges.size ∧ Scalar.isFinite slack = true ∧
      { b with hyperedgeSlack := b.hyperedgeSlack.set! e (some slack) } = next := by
  unfold setHyperedgeSlack
  simp only [check_bind_eq_ok, Entity.require_eq_ok, Quantity.requireFinite_eq_ok,
    List.forall_mem_singleton, pure_eq_ok, Except.ok.injEq]

omit [Scalar α] in
theorem requireAttached_eq_ok {vertices : List Nat} {e : Nat} :
    b.requireAttached vertices e = .ok ()
      ↔
    ∃ h, b.hyperedges[e]? = some h ∧ ∃ v ∈ vertices, v ∈ h.pins := by
  unfold requireAttached
  rw [check_bind_eq_ok, Entity.require_eq_ok]
  constructor
  . rintro ⟨he, h⟩
    refine ⟨b.hyperedges[e], Array.getElem?_eq_getElem he, ?_⟩
    simpa [he] using h
  . rintro ⟨h, hget, hattached⟩
    obtain ⟨he, rfl⟩ := Array.getElem?_eq_some_iff.mp hget
    simpa [he] using hattached

theorem addPath_eq_ok {vertices hyperedges : List Nat} {slack : α} :
    b.addPath vertices hyperedges slack = .ok next
      ↔
    vertices ≠ [] ∧ Scalar.isFinite slack = true ∧ (∀ v ∈ vertices, v < b.vertices.size) ∧
      (∀ e ∈ hyperedges, ∃ h, b.hyperedges[e]? = some h ∧ ∃ v ∈ vertices, v ∈ h.pins) ∧
      { b with paths := b.paths.push ⟨vertices, hyperedges, slack, slack⟩ } = next := by
  unfold addPath
  simp only [throw_eq_error, error_bind]
  split
  . next hempty => simp_all
  . next hne =>
    simp only [check_bind_eq_ok, Quantity.requireFinite_eq_ok, List.forall_mem_singleton,
      forM_eq_ok, Entity.require_eq_ok, requireAttached_eq_ok, pure_eq_ok, Except.ok.injEq]
    simp_all

theorem build_eq_ok {graph : Hypergraph α} :
    b.build = .ok graph
      ↔
    b.dimensions.vertex ≠ 0 ∧ b.dimensions.hyperedge ≠ 0 ∧ ∃ timing, b.timing? = .ok timing ∧
      {
        dimensions := b.dimensions
        vertices := b.vertices
        hyperedges := b.hyperedges
        vertexHyperedges := IndexSet.invert (b.hyperedges.toList.map (·.pins)) b.vertices.size
        timing } = graph := by
  unfold build
  simp only [throw_eq_error, error_bind]
  split
  . next hzero =>
    simp only [reduceCtorEq, false_iff]
    tauto
  . next hne =>
    rw [not_or] at hne
    simp only [bind_eq_ok, pure_eq_ok, Except.ok.injEq]
    simp [hne]

theorem timing?_eq_ok_some {timing : Timing α} :
    b.timing? = .ok (some timing)
      ↔
    ∃ period, b.clockPeriod = some period ∧ Scalar.isFinite period = true ∧ 0 < period ∧
      b.timing period = timing := by
  unfold timing?
  cases b.clockPeriod with
  | none =>
    dsimp only
    split <;> simp
  | some period =>
    dsimp only
    split
    . next hperiod => simp [hperiod]
    . next hperiod =>
      simp only [reduceCtorEq, Option.some.injEq, exists_eq_left', false_iff]
      tauto

end Builder

namespace Timing

variable {timing next : Timing α}

theorem setPathSlack_eq_ok {p : Nat} {slack : α} :
    timing.setPathSlack p slack = .ok next
      ↔
    p < timing.paths.size ∧ Scalar.isFinite slack = true ∧
      { timing with paths := timing.paths.modify p ({ · with slack }) } = next := by
  unfold setPathSlack
  simp only [check_bind_eq_ok, Entity.require_eq_ok, Quantity.requireFinite_eq_ok,
    List.forall_mem_singleton, pure_eq_ok, Except.ok.injEq]

theorem setHyperedgeSlack_eq_ok {e : Nat} {slack : α} :
    timing.setHyperedgeSlack e slack = .ok next
      ↔
    e < timing.hyperedgeSlack.size ∧ Scalar.isFinite slack = true ∧
      { timing with hyperedgeSlack := timing.hyperedgeSlack.set! e slack } = next := by
  unfold setHyperedgeSlack
  simp only [check_bind_eq_ok, Entity.require_eq_ok, Quantity.requireFinite_eq_ok,
    List.forall_mem_singleton, pure_eq_ok, Except.ok.injEq]

omit [Scalar α] in
theorem setDerived_eq_ok {derived : DerivedCosts α} :
    timing.setDerived derived = .ok next
      ↔
    derived.pathCosts.size = timing.paths.size ∧
      derived.hyperedgeWeights.size = timing.hyperedgeSlack.size ∧
      { timing with derived := some derived } = next := by
  unfold setDerived
  split
  . next hsize => simp [hsize]
  . next hsize =>
    simp only [reduceCtorEq, false_iff]
    tauto

end Timing

end CircuitPartition
