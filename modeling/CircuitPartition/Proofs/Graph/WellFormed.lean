import CircuitPartition.Proofs.Graph.Step
import CircuitPartition.Proofs.IndexSet

/-!
What holds of the indices and vectors of every hypergraph that has been assembled step by step, and
stays so under the changes of slacks and derived costs.
-/

namespace CircuitPartition

variable {α : Type}

structure Timing.WellFormed (vertices hyperedges : Nat) (timing : Timing α) : Prop where
  baseHyperedgeSlack_size : timing.baseHyperedgeSlack.size = hyperedges
  hyperedgeSlack_size : timing.hyperedgeSlack.size = hyperedges
  path_vertices : ∀ path ∈ timing.paths, path.vertices ≠ [] ∧ ∀ v ∈ path.vertices, v < vertices
  path_hyperedges : ∀ path ∈ timing.paths, ∀ e ∈ path.hyperedges, e < hyperedges
  vertexPaths_eq :
    timing.vertexPaths = IndexSet.invert (timing.paths.toList.map (·.vertices)) vertices
  hyperedgePaths_eq :
    timing.hyperedgePaths = IndexSet.invert (timing.paths.toList.map (·.hyperedges)) hyperedges
  derived : ∀ derived, timing.derived = some derived →
    derived.pathCosts.size = timing.paths.size ∧ derived.hyperedgeWeights.size = hyperedges

structure Hypergraph.WellFormed (graph : Hypergraph α) : Prop where
  weight_length : ∀ v ∈ graph.vertices, v.weight.length = graph.dimensions.vertex
  pins_ne_nil : ∀ h ∈ graph.hyperedges, h.pins ≠ []
  pins_pairwise : ∀ h ∈ graph.hyperedges, h.pins.Pairwise (· < ·)
  pins_lt : ∀ h ∈ graph.hyperedges, ∀ v ∈ h.pins, v < graph.numVertices
  vertexHyperedges_eq : graph.vertexHyperedges
    = IndexSet.invert (graph.hyperedges.toList.map (·.pins)) graph.numVertices
  timing : ∀ timing, graph.timing = some timing →
    timing.WellFormed graph.numVertices graph.numHyperedges

structure Builder.WellFormed (b : Builder α) : Prop where
  weight_length : ∀ v ∈ b.vertices, v.weight.length = b.dimensions.vertex
  pins_ne_nil : ∀ h ∈ b.hyperedges, h.pins ≠ []
  pins_pairwise : ∀ h ∈ b.hyperedges, h.pins.Pairwise (· < ·)
  pins_lt : ∀ h ∈ b.hyperedges, ∀ v ∈ h.pins, v < b.vertices.size
  hyperedgeSlack_size : b.hyperedgeSlack.size = b.hyperedges.size
  path_vertices : ∀ path ∈ b.paths, path.vertices ≠ [] ∧ ∀ v ∈ path.vertices, v < b.vertices.size
  path_hyperedges : ∀ path ∈ b.paths, ∀ e ∈ path.hyperedges, e < b.hyperedges.size

namespace Builder

theorem wellFormed_empty (vertex hyperedge : Nat) :
    (Builder.empty vertex hyperedge : Builder α).WellFormed := by
  constructor <;> simp [Builder.empty]

theorem WellFormed.withPlacementDimensions {b : Builder α} (hb : b.WellFormed) (n : Nat) :
    (b.withPlacementDimensions n).WellFormed := by
  obtain ⟨h1, h2, h3, h4, h5, h6, h7⟩ := hb
  exact ⟨h1, h2, h3, h4, h5, h6, h7⟩

theorem WellFormed.withClockPeriod {b : Builder α} (hb : b.WellFormed) (period : α) :
    (b.withClockPeriod period).WellFormed := by
  obtain ⟨h1, h2, h3, h4, h5, h6, h7⟩ := hb
  exact ⟨h1, h2, h3, h4, h5, h6, h7⟩

variable [Scalar α] {b next : Builder α}

theorem WellFormed.addVertex (hb : b.WellFormed) {weight location : List α}
    (h : b.addVertex weight location = .ok next) : next.WellFormed := by
  obtain ⟨hlength, _, _, _, rfl⟩ := addVertex_eq_ok.mp h
  constructor
  . exact Array.forall_mem_push.mpr ⟨hlength.symm, hb.weight_length⟩
  . exact hb.pins_ne_nil
  . exact hb.pins_pairwise
  . intro h hh v hv
    have := hb.pins_lt h hh v hv
    rw [Array.size_push]
    omega
  . exact hb.hyperedgeSlack_size
  . intro path hpath
    constructor
    . exact (hb.path_vertices path hpath).left
    . intro v hv
      have := (hb.path_vertices path hpath).right v hv
      rw [Array.size_push]
      omega
  . exact hb.path_hyperedges

theorem WellFormed.addHyperedge (hb : b.WellFormed) {pins : List Nat} {weight : List α}
    (h : b.addHyperedge pins weight = .ok next) : next.WellFormed := by
  obtain ⟨hne, _, _, hlt, rfl⟩ := addHyperedge_eq_ok.mp h
  have hset : IndexSet.ofList pins ≠ [] := by
    obtain ⟨pin, hpin⟩ := List.exists_mem_of_ne_nil pins hne
    exact List.ne_nil_of_mem (IndexSet.mem_ofList.mpr hpin)
  constructor
  . exact hb.weight_length
  . exact Array.forall_mem_push.mpr ⟨hset, hb.pins_ne_nil⟩
  . exact Array.forall_mem_push.mpr ⟨IndexSet.pairwise_ofList pins, hb.pins_pairwise⟩
  . exact Array.forall_mem_push.mpr ⟨fun v hv => hlt v (IndexSet.mem_ofList.mp hv), hb.pins_lt⟩
  . simp [hb.hyperedgeSlack_size]
  . exact hb.path_vertices
  . intro path hpath e he
    have := hb.path_hyperedges path hpath e he
    rw [Array.size_push]
    omega

theorem WellFormed.setHyperedgeSlack (hb : b.WellFormed) {e : Nat} {slack : α}
    (h : b.setHyperedgeSlack e slack = .ok next) : next.WellFormed := by
  obtain ⟨_, _, rfl⟩ := setHyperedgeSlack_eq_ok.mp h
  obtain ⟨h1, h2, h3, h4, h5, h6, h7⟩ := hb
  exact ⟨h1, h2, h3, h4, by simpa using h5, h6, h7⟩

theorem WellFormed.addPath (hb : b.WellFormed) {vertices hyperedges : List Nat} {slack : α}
    (h : b.addPath vertices hyperedges slack = .ok next) : next.WellFormed := by
  obtain ⟨hne, _, hv, hattached, rfl⟩ := addPath_eq_ok.mp h
  obtain ⟨h1, h2, h3, h4, h5, h6, h7⟩ := hb
  constructor
  . exact h1
  . exact h2
  . exact h3
  . exact h4
  . exact h5
  . exact Array.forall_mem_push.mpr ⟨⟨hne, hv⟩, h6⟩
  . refine Array.forall_mem_push.mpr ⟨?_, h7⟩
    intro e he
    obtain ⟨_, hget, _⟩ := hattached e he
    exact (Array.getElem?_eq_some_iff.mp hget).1

theorem WellFormed.build (hb : b.WellFormed) {graph : Hypergraph α} (h : b.build = .ok graph) :
    graph.WellFormed := by
  obtain ⟨_, _, timing, htiming, rfl⟩ := build_eq_ok.mp h
  constructor
  . exact hb.weight_length
  . exact hb.pins_ne_nil
  . exact hb.pins_pairwise
  . exact hb.pins_lt
  . rfl
  . intro t ht
    dsimp only at ht
    subst ht
    obtain ⟨period, _, _, _, rfl⟩ := timing?_eq_ok_some.mp htiming
    have hslack := hb.hyperedgeSlack_size
    rw [← Array.size_map] at hslack
    constructor
    . exact hslack
    . exact hslack
    . exact hb.path_vertices
    . exact hb.path_hyperedges
    . rfl
    . rfl
    . simp [Builder.timing]

end Builder

namespace Timing

theorem map_modify_slack {β : Type} (paths : Array (TimingPath α)) (f : TimingPath α → β)
    {slack : α} (hf : ∀ path, f { path with slack } = f path) (p : Nat) :
    (paths.modify p ({ · with slack })).toList.map f = paths.toList.map f := by
  apply List.ext_getElem?
  intro i
  simp only [List.getElem?_map, Array.getElem?_toList, Array.getElem?_modify]
  split
  . cases paths[i]? with
    | none => rfl
    | some path => simp [hf]
  . rfl

theorem forall_mem_modify_slack {P : TimingPath α → Prop} {paths : Array (TimingPath α)} {slack : α}
    (h : ∀ path ∈ paths, P path) (hslack : ∀ path, P path → P { path with slack }) {p : Nat} :
    ∀ path ∈ paths.modify p ({ · with slack }), P path := by
  intro path hpath
  obtain ⟨i, hi, rfl⟩ := Array.mem_iff_getElem.mp hpath
  rw [Array.size_modify] at hi
  have hold := h paths[i] (Array.getElem_mem hi)
  rw [Array.getElem_modify]
  split
  . exact hslack _ hold
  . exact hold

variable [Scalar α] {vertices hyperedges : Nat} {timing next : Timing α}

theorem WellFormed.setPathSlack (ht : timing.WellFormed vertices hyperedges) {p : Nat} {slack : α}
    (h : timing.setPathSlack p slack = .ok next) : next.WellFormed vertices hyperedges := by
  obtain ⟨_, _, rfl⟩ := setPathSlack_eq_ok.mp h
  constructor
  . exact ht.baseHyperedgeSlack_size
  . exact ht.hyperedgeSlack_size
  . exact forall_mem_modify_slack ht.path_vertices (fun _ hpath => hpath)
  . exact forall_mem_modify_slack ht.path_hyperedges (fun _ hpath => hpath)
  . rw [map_modify_slack _ _ (fun _ => rfl)]
    exact ht.vertexPaths_eq
  . rw [map_modify_slack _ _ (fun _ => rfl)]
    exact ht.hyperedgePaths_eq
  . intro derived hderived
    rw [Array.size_modify]
    exact ht.derived derived hderived

theorem WellFormed.setHyperedgeSlack (ht : timing.WellFormed vertices hyperedges) {e : Nat}
    {slack : α} (h : timing.setHyperedgeSlack e slack = .ok next) :
    next.WellFormed vertices hyperedges := by
  obtain ⟨_, _, rfl⟩ := setHyperedgeSlack_eq_ok.mp h
  obtain ⟨h1, h2, h3, h4, h5, h6, h7⟩ := ht
  exact ⟨h1, by simpa using h2, h3, h4, h5, h6, h7⟩

omit [Scalar α] in
theorem WellFormed.setDerived (ht : timing.WellFormed vertices hyperedges)
    {derived : DerivedCosts α}
    (h : timing.setDerived derived = .ok next) : next.WellFormed vertices hyperedges := by
  obtain ⟨hpaths, hweights, rfl⟩ := setDerived_eq_ok.mp h
  obtain ⟨h1, h2, h3, h4, h5, h6, h7⟩ := ht
  refine ⟨h1, h2, h3, h4, h5, h6, ?_⟩
  intro other hother
  simp only [Option.some.injEq] at hother
  subst hother
  rw [h2] at hweights
  exact ⟨hpaths, hweights⟩

end Timing

end CircuitPartition
