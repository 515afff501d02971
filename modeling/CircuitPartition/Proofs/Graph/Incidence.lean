import CircuitPartition.Proofs.Graph.WellFormed
import Mathlib.Data.List.Perm.Subperm

/-!
Pins, paths and weights of a hypergraph without the question whether they are there, and how the two
indices of a well-formed hypergraph answer for them.
-/

namespace CircuitPartition.Hypergraph

variable {α : Type} (graph : Hypergraph α)

def pins (e : Nat) : List Nat :=
  ((graph.hyperedge? e).map (·.pins)).getD []

def incident (v : Nat) : List Nat :=
  (graph.vertexHyperedges? v).getD []

def walk (p : Nat) : List Nat :=
  ((graph.path? p).map (·.vertices)).getD []

def through (v : Nat) : List Nat :=
  (graph.vertexPaths? v).getD []

def traversed (p : Nat) : List Nat :=
  ((graph.path? p).map (·.hyperedges)).getD []

def weight (v : Nat) : List α :=
  ((graph.vertex? v).map (·.weight)).getD []

variable {graph}

theorem hyperedge?_of_lt {e : Nat} (he : e < graph.numHyperedges) :
    ∃ h ∈ graph.hyperedges, graph.hyperedge? e = some h ∧ graph.pins e = h.pins := by
  unfold numHyperedges at he
  refine ⟨graph.hyperedges[e], Array.getElem_mem he, ?_⟩
  simp [pins, hyperedge?, he]

theorem vertex?_of_lt {v : Nat} (hv : v < graph.numVertices) :
    ∃ x ∈ graph.vertices, graph.vertex? v = some x ∧ graph.weight v = x.weight := by
  unfold numVertices at hv
  refine ⟨graph.vertices[v], Array.getElem_mem hv, ?_⟩
  simp [weight, vertex?, hv]

theorem lt_of_mem_pins {v e : Nat} (h : v ∈ graph.pins e) : e < graph.numHyperedges := by
  cases Nat.lt_or_ge e graph.numHyperedges with
  | inl he => exact he
  | inr he =>
    unfold numHyperedges at he
    simp [pins, hyperedge?, he] at h

theorem path?_of_lt {p : Nat} (hp : p < graph.numPaths) :
    ∃ timing, graph.timing = some timing ∧ ∃ path ∈ timing.paths,
      timing.paths[p]? = some path ∧ graph.path? p = some path ∧ graph.walk p = path.vertices := by
  unfold numPaths at hp
  split at hp
  . next timing ht =>
    refine ⟨timing, ht, timing.paths[p], Array.getElem_mem hp, ?_⟩
    simp [walk, path?, ht, hp]
  . omega

theorem lt_of_mem_walk {v p : Nat} (h : v ∈ graph.walk p) : p < graph.numPaths := by
  cases Nat.lt_or_ge p graph.numPaths with
  | inl hp => exact hp
  | inr hp =>
    unfold numPaths at hp
    unfold walk path? at h
    split at hp
    . next timing ht => simp [ht, hp] at h
    . next ht => simp [ht] at h

namespace WellFormed

variable (hg : graph.WellFormed)

include hg

theorem length_weight {v : Nat} (hv : v < graph.numVertices) :
    (graph.weight v).length = graph.dimensions.vertex := by
  obtain ⟨x, hmem, _, hweight⟩ := vertex?_of_lt hv
  rw [hweight]
  exact hg.weight_length x hmem

theorem nodup_pins (e : Nat) : (graph.pins e).Nodup := by
  cases Nat.lt_or_ge e graph.numHyperedges with
  | inl he =>
    obtain ⟨h, hmem, _, hpins⟩ := hyperedge?_of_lt he
    rw [hpins]
    apply (hg.pins_pairwise h hmem).imp
    omega
  | inr he =>
    unfold numHyperedges at he
    simp [pins, hyperedge?, he]

theorem lt_of_mem {v e : Nat} (h : v ∈ graph.pins e) : v < graph.numVertices := by
  obtain ⟨h', hmem, _, hpins⟩ := hyperedge?_of_lt (lt_of_mem_pins h)
  rw [hpins] at h
  exact hg.pins_lt h' hmem v h

theorem pins_length_le {h : Hyperedge α} (hmem : h ∈ graph.hyperedges) :
    h.pins.length ≤ graph.numVertices := by
  have hnodup : h.pins.Nodup := (hg.pins_pairwise h hmem).imp Nat.ne_of_lt
  rw [← List.length_range (n := graph.numVertices)]
  apply List.Subperm.length_le
  apply List.subperm_of_subset hnodup
  intro v hv
  exact List.mem_range.mpr (hg.pins_lt h hmem v hv)

theorem length_pins_le (e : Nat) : (graph.pins e).length ≤ graph.numVertices := by
  cases Nat.lt_or_ge e graph.numHyperedges with
  | inl he =>
    obtain ⟨h, hmem, _, hpins⟩ := hyperedge?_of_lt he
    rw [hpins]
    exact hg.pins_length_le hmem
  | inr he =>
    unfold numHyperedges at he
    simp [pins, hyperedge?, he]

theorem inverts_vertexHyperedges :
    IndexSet.Inverts graph.vertexHyperedges? graph.numVertices graph.pins := by
  have hmembers : graph.pins = fun e => (graph.hyperedges.toList.map (·.pins))[e]?.getD [] := by
    funext e
    simp [pins, hyperedge?]
  unfold vertexHyperedges?
  rw [hg.vertexHyperedges_eq, hmembers]
  apply IndexSet.inverts_invert

theorem vertexHyperedges?_of_lt {v : Nat} (hv : v < graph.numVertices) :
    graph.vertexHyperedges? v = some (graph.incident v) := by
  obtain ⟨set, hset, _⟩ := hg.inverts_vertexHyperedges v hv
  simp [incident, hset]

theorem mem_incident {v e : Nat} (hv : v < graph.numVertices) :
    e ∈ graph.incident v ↔ v ∈ graph.pins e := by
  obtain ⟨set, hset, _, hmem⟩ := hg.inverts_vertexHyperedges v hv
  unfold incident
  rw [hset]
  exact hmem e

theorem nodup_incident (v : Nat) : (graph.incident v).Nodup := by
  cases Nat.lt_or_ge v graph.numVertices with
  | inl hv =>
    obtain ⟨set, hset, hasc, _⟩ := hg.inverts_vertexHyperedges v hv
    unfold incident
    rw [hset]
    apply hasc.imp
    omega
  | inr hv =>
    unfold incident vertexHyperedges?
    rw [hg.vertexHyperedges_eq]
    simp [hv]

theorem lt_of_mem_walk {v p : Nat} (h : v ∈ graph.walk p) : v < graph.numVertices := by
  obtain ⟨timing, ht, path, hmem, _, _, hwalk⟩ := path?_of_lt (Hypergraph.lt_of_mem_walk h)
  rw [hwalk] at h
  exact ((hg.timing timing ht).path_vertices path hmem).right v h

theorem inverts_vertexPaths :
    IndexSet.Inverts graph.vertexPaths? graph.numVertices graph.walk := by
  cases ht : graph.timing with
  | none =>
    intro v _
    exact ⟨[], by simp [vertexPaths?, walk, path?, ht]⟩
  | some timing =>
    have hindex : graph.vertexPaths? = (timing.vertexPaths[·]?) := by
      funext v
      simp [vertexPaths?, ht]
    have hmembers : graph.walk = fun p => (timing.paths.toList.map (·.vertices))[p]?.getD [] := by
      funext p
      simp [walk, path?, ht]
    rw [hindex, hmembers, (hg.timing timing ht).vertexPaths_eq]
    apply IndexSet.inverts_invert

theorem inverts_hyperedgePaths :
    IndexSet.Inverts graph.hyperedgePaths? graph.numHyperedges graph.traversed := by
  cases ht : graph.timing with
  | none =>
    intro e _
    exact ⟨[], by simp [hyperedgePaths?, traversed, path?, ht]⟩
  | some timing =>
    have hindex : graph.hyperedgePaths? = (timing.hyperedgePaths[·]?) := by
      funext e
      simp [hyperedgePaths?, ht]
    have hmembers : graph.traversed
        = fun p => (timing.paths.toList.map (·.hyperedges))[p]?.getD [] := by
      funext p
      simp [traversed, path?, ht]
    rw [hindex, hmembers, (hg.timing timing ht).hyperedgePaths_eq]
    apply IndexSet.inverts_invert

theorem vertexPaths?_of_lt {v : Nat} (hv : v < graph.numVertices) :
    graph.vertexPaths? v = some (graph.through v) := by
  obtain ⟨set, hset, _⟩ := hg.inverts_vertexPaths v hv
  simp [through, hset]

theorem mem_through {v p : Nat} (hv : v < graph.numVertices) :
    p ∈ graph.through v ↔ v ∈ graph.walk p := by
  obtain ⟨set, hset, _, hmem⟩ := hg.inverts_vertexPaths v hv
  unfold through
  rw [hset]
  exact hmem p

end WellFormed

end CircuitPartition.Hypergraph
