import CircuitPartition.Proofs.Partition.Tracks
import CircuitPartition.Refine.Move

/-!
Committing a move. Its vertices are fixed before the first of them goes; they take degrees and
balance along one by one, and the paths through them are all that has to be priced again.
-/

namespace CircuitPartition

variable {α : Type}

namespace Hypergraph

variable (graph : Hypergraph α)

def touchedHyperedges (vertices : List Nat) : List Nat :=
  IndexSet.ofList (vertices.map graph.incident).flatten

def touchedPaths (vertices : List Nat) : List Nat :=
  IndexSet.ofList (vertices.map graph.through).flatten

variable {graph}

namespace WellFormed

variable (hg : graph.WellFormed) {vertices : List Nat} (h : ∀ v ∈ vertices, v < graph.numVertices)

include hg h

theorem touchedHyperedges?_eq :
    graph.touchedHyperedges? vertices = some (graph.touchedHyperedges vertices) := by
  unfold touchedHyperedges?
  rw [mapM_of_found]
  . rfl
  . intro v hv
    exact hg.vertexHyperedges?_of_lt (h v hv)

theorem touchedPaths?_eq : graph.touchedPaths? vertices = some (graph.touchedPaths vertices) := by
  unfold touchedPaths?
  rw [mapM_of_found]
  . rfl
  . intro v hv
    exact hg.vertexPaths?_of_lt (h v hv)

theorem mem_touchedHyperedges {e : Nat} :
    e ∈ graph.touchedHyperedges vertices ↔ ∃ v ∈ vertices, v ∈ graph.pins e := by
  unfold touchedHyperedges
  simp only [IndexSet.mem_ofList, List.mem_flatten, List.mem_map, exists_exists_and_eq_and]
  constructor
  . rintro ⟨v, hv, he⟩
    exact ⟨v, hv, (hg.mem_incident (h v hv)).mp he⟩
  . rintro ⟨v, hv, he⟩
    exact ⟨v, hv, (hg.mem_incident (h v hv)).mpr he⟩

theorem mem_touchedPaths {p : Nat} :
    p ∈ graph.touchedPaths vertices ↔ ∃ v ∈ vertices, v ∈ graph.walk p := by
  unfold touchedPaths
  simp only [IndexSet.mem_ofList, List.mem_flatten, List.mem_map, exists_exists_and_eq_and]
  constructor
  . rintro ⟨v, hv, hp⟩
    exact ⟨v, hv, (hg.mem_through (h v hv)).mp hp⟩
  . rintro ⟨v, hv, hp⟩
    exact ⟨v, hv, (hg.mem_through (h v hv)).mpr hp⟩

theorem lt_of_mem_touchedHyperedges {e : Nat} (he : e ∈ graph.touchedHyperedges vertices) :
    e < graph.numHyperedges := by
  obtain ⟨v, _, hpin⟩ := (hg.mem_touchedHyperedges h).mp he
  exact lt_of_mem_pins hpin

theorem lt_of_mem_touchedPaths {p : Nat} (hp : p ∈ graph.touchedPaths vertices) :
    p < graph.numPaths := by
  obtain ⟨v, _, hwalk⟩ := (hg.mem_touchedPaths h).mp hp
  exact Hypergraph.lt_of_mem_walk hwalk

end WellFormed

def movers (graph : Hypergraph α) (solution : Solution) (e target : Nat) : List Nat :=
  (graph.pins e).filter fun v => solution.blockOf v != target

variable {solution : Solution} {e target v : Nat}

theorem mem_movers :
    v ∈ graph.movers solution e target ↔ v ∈ graph.pins e ∧ solution.blockOf v ≠ target := by
  simp [movers]

theorem WellFormed.lt_of_mem_movers (hg : graph.WellFormed) :
    ∀ v ∈ graph.movers solution e target, v < graph.numVertices := by
  intro v hv
  exact hg.lt_of_mem (mem_movers.mp hv).left

end Hypergraph

namespace CostModel.Admits

variable {model : CostModel α} {graph : Hypergraph α} {solution : Solution}
  (h : model.Admits graph solution) (hg : graph.WellFormed) {e target : Nat}

include h hg

theorem movers?_eq (he : e < graph.numHyperedges) :
    CostModel.movers? graph solution e target = some (graph.movers solution e target) := by
  obtain ⟨hyperedge, _, hsome, hpins⟩ := Hypergraph.hyperedge?_of_lt he
  unfold CostModel.movers? Hypergraph.movers
  rw [hsome, some_bind, hpins]
  apply filterM_of_found
  intro v hv
  rw [← hpins] at hv
  rw [h.getElem?_of_lt (hg.lt_of_mem hv)]
  rfl

theorem blockOf_gather_pins {v : Nat} :
    Solution.blockOf (solution.gather (graph.pins e) target) v
      =
    if v ∈ graph.pins e then target else solution.blockOf v := by
  apply Solution.blockOf_gather
  intro u hu
  rw [h.size_eq]
  exact hg.lt_of_mem hu

theorem blockOf_gather_of_not_mem_movers {v : Nat} (hv : v ∉ graph.movers solution e target) :
    Solution.blockOf (solution.gather (graph.pins e) target) v = solution.blockOf v := by
  rw [h.blockOf_gather_pins hg]
  split
  . next hpin =>
    -- A pin that is no mover is in the target block already.
    rw [Hypergraph.mem_movers] at hv
    have := not_and.mp hv hpin
    exact (not_not.mp this).symm
  . rfl

theorem gather_movers (ht : target < model.numParts) :
    solution.gather (graph.movers solution e target) target
      =
    solution.gather (graph.pins e) target := by
  apply (h.gather _ ht).ext (h.gather _ ht)
  intro v hv
  have hmovers : ∀ u ∈ graph.movers solution e target, u < solution.size := by
    rw [h.size_eq]
    exact hg.lt_of_mem_movers
  rw [Solution.blockOf_gather hmovers]
  split
  . next hmem =>
    rw [h.blockOf_gather_pins hg, if_pos (Hypergraph.mem_movers.mp hmem).left]
  . next hmem =>
    rw [h.blockOf_gather_of_not_mem_movers hg hmem]

theorem walkCost_gather [Scalar α] {p : Nat}
    (hp : p ∉ graph.touchedPaths (graph.movers solution e target)) :
    model.walkCost graph (Solution.blockOf (solution.gather (graph.pins e) target)) p
      =
    model.walkCost graph solution.blockOf p := by
  apply walkCost_congr
  intro v hv
  apply h.blockOf_gather_of_not_mem_movers hg
  intro hmem
  apply hp
  rw [hg.mem_touchedPaths hg.lt_of_mem_movers]
  exact ⟨v, hmem, hv⟩

theorem cut_gather {e' : Nat}
    (he' : e' ∉ graph.touchedHyperedges (graph.movers solution e target)) :
    graph.cut (Solution.blockOf (solution.gather (graph.pins e) target)) e'
      =
    graph.cut solution.blockOf e' := by
  apply Hypergraph.cut_congr
  intro v hv
  apply h.blockOf_gather_of_not_mem_movers hg
  intro hmem
  apply he'
  rw [hg.mem_touchedHyperedges hg.lt_of_mem_movers]
  exact ⟨v, hmem, hv⟩

end CostModel.Admits

variable [Scalar α]

namespace PartitionState

def gathered (model : CostModel α) (graph : Hypergraph α) (state : PartitionState α)
    (vertices : List Nat) (target : Nat) : PartitionState α :=
  vertices.foldl (moved model graph target) state

def committed (model : CostModel α) (graph : Hypergraph α) (state : PartitionState α)
    (e target : Nat) : PartitionState α :=
  let moved := state.gathered model graph (graph.movers state.solution e target) target
  { moved with pathCosts := (model.costTable graph moved.solution).toArray }

variable {model : CostModel α} {graph : Hypergraph α} {state : PartitionState α} {target : Nat}

theorem solution_gathered (vertices : List Nat) :
    (state.gathered model graph vertices target).solution
      =
    state.solution.gather vertices target := by
  unfold gathered Solution.gather
  induction vertices generalizing state with
  | nil => rfl
  | cons v vertices ih => exact ih

theorem pathCosts_gathered (vertices : List Nat) :
    (state.gathered model graph vertices target).pathCosts = state.pathCosts := by
  unfold gathered
  induction vertices generalizing state with
  | nil => rfl
  | cons v vertices ih => exact ih

theorem Tracks.gathered (h : state.Tracks model graph) (ht : target < model.numParts)
    {vertices : List Nat} (hv : ∀ v ∈ vertices, v < graph.numVertices) :
    (state.gathered model graph vertices target).Tracks model graph := by
  unfold PartitionState.gathered
  induction vertices generalizing state with
  | nil => exact h
  | cons v vertices ih =>
    rw [List.forall_mem_cons] at hv
    exact ih (h.moved hv.left ht) hv.right

theorem Tracks.foldlM_move (h : state.Tracks model graph) (hg : graph.WellFormed)
    (ht : target < model.numParts) {vertices : List Nat}
    (hv : ∀ v ∈ vertices, v < graph.numVertices) :
    vertices.foldlM (fun state v => state.move graph v target) state
      =
    .ok (state.gathered model graph vertices target) := by
  unfold PartitionState.gathered
  induction vertices generalizing state with
  | nil => rfl
  | cons v vertices ih =>
    rw [List.forall_mem_cons] at hv
    rw [List.foldlM_cons, h.move_eq hg hv.left ht, ok_bind]
    exact ih (h.moved hv.left ht) hv.right

namespace InStep

variable (h : state.InStep model graph) (hg : graph.WellFormed) {e : Nat}
  (ht : target < model.numParts)

include h hg ht

theorem solution_committed :
    (state.committed model graph e target).solution
      =
    state.solution.gather (graph.pins e) target := by
  unfold PartitionState.committed
  dsimp only
  rw [solution_gathered, h.admits.gather_movers hg ht]

theorem committed : (state.committed model graph e target).InStep model graph := by
  apply Tracks.withPathCosts
  exact h.toTracks.gathered ht hg.lt_of_mem_movers

theorem refresh?_gathered :
    (state.gathered model graph (graph.movers state.solution e target) target).refresh? model graph
        (graph.touchedPaths (graph.movers state.solution e target))
      =
    some (state.committed model graph e target) := by
  have hmovers : ∀ v ∈ graph.movers state.solution e target, v < graph.numVertices :=
    hg.lt_of_mem_movers
  have hmoved := h.toTracks.gathered ht hmovers
  apply hmoved.refresh? hg
  . intro p hp
    exact hg.lt_of_mem_touchedPaths hmovers hp
  . rw [pathCosts_gathered]
    exact h.size_pathCosts
  -- A path that no mover lies on costs what it did before.
  . intro p hp hmem
    rw [pathCosts_gathered, h.getElem?_pathCosts hp, solution_gathered,
      h.admits.gather_movers hg ht, h.admits.walkCost_gather hg hmem]

theorem commit_eq {move : Gain α} (he : move.hyperedge < graph.numHyperedges)
    (htarget : move.target = some target) :
    model.commit graph state move
      =
    .ok (move.gain, state.committed model graph move.hyperedge target) := by
  unfold CostModel.commit Counting.commit
  rw [PartitionState.unbounded_move]
  rw [htarget]
  dsimp only
  rw [h.admits.movers?_eq hg he, Fault.liftM_some, ok_bind,
    h.toTracks.foldlM_move hg ht hg.lt_of_mem_movers, ok_bind,
    hg.touchedPaths?_eq hg.lt_of_mem_movers, Fault.liftM_some, ok_bind,
    h.refresh?_gathered hg ht, Fault.liftM_some, ok_bind]
  rfl

end InStep

end PartitionState

end CircuitPartition
