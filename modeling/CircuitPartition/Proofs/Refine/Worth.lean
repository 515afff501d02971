import CircuitPartition.Proofs.Graph.Reachable
import CircuitPartition.Proofs.Refine.Locality

/-!
What a move is worth. The price that is worked out before a move, from the hyperedges and paths of
its vertices alone, is what the whole cost falls by once the move is committed.
-/

namespace CircuitPartition

variable {α : Type}

theorem Degrees.count_replicate (numParts n block : Nat) :
    count numParts (List.replicate n block)
      =
    (Array.range numParts).map fun b => if b = block then n else 0 := by
  unfold count
  congr 1
  funext b
  rw [List.count_replicate]
  by_cases hb : b = block
  . simp [hb]
  . have : ¬block = b := fun heq => hb heq.symm
    simp [hb, this]

structure PulledInto [Scalar α] (model : CostModel α) (graph : Hypergraph α)
    (before : PartitionState α) (e target : Nat) (after : PartitionState α) : Prop where
  pins : ∃ hyperedge, graph.hyperedge? e = some hyperedge ∧
    (∀ v : Nat, after.solution[v]?
      = if v ∈ hyperedge.pins then some target else before.solution[v]?) ∧
    after.netDegrees[e]? = some
      ((Array.range model.numParts).map fun block =>
        if block = target then hyperedge.pins.length else 0)
  uncut : ∃ cut, model.cutHyperedges graph after.solution = .ok cut ∧ e ∉ cut

variable {model : CostModel α} {graph : Hypergraph α} {state : PartitionState α} {e target : Nat}

theorem CostModel.Admits.getElem?_gather_pins {solution : Solution}
    (h : model.Admits graph solution) (hg : graph.WellFormed) (ht : target < model.numParts)
    (v : Nat) :
    (solution.gather (graph.pins e) target)[v]?
      =
    if v ∈ graph.pins e then some target else solution[v]? := by
  have hgather := h.gather (graph.pins e) ht
  cases Nat.lt_or_ge v graph.numVertices with
  | inl hv =>
    rw [hgather.getElem?_of_lt hv, h.getElem?_of_lt hv, h.blockOf_gather_pins hg]
    split
    . rfl
    . rfl
  | inr hv =>
    have hpin : v ∉ graph.pins e := fun hmem => absurd (hg.lt_of_mem hmem) (by omega)
    have hsize := hgather.size_eq
    have hsize' := h.size_eq
    rw [if_neg hpin, Array.getElem?_eq_none (by omega), Array.getElem?_eq_none (by omega)]

theorem CostModel.Admits.map_blockOf_gather_pins {solution : Solution}
    (h : model.Admits graph solution) (hg : graph.WellFormed) (e target : Nat) :
    (graph.pins e).map (Solution.blockOf (solution.gather (graph.pins e) target))
      =
    List.replicate (graph.pins e).length target := by
  rw [List.eq_replicate_iff]
  refine ⟨List.length_map _, ?_⟩
  intro block hblock
  obtain ⟨v, hv, rfl⟩ := List.mem_map.mp hblock
  rw [h.blockOf_gather_pins hg, if_pos hv]

theorem PartitionState.InStep.pulledInto_committed [Scalar α] (h : state.InStep model graph)
    (hg : graph.WellFormed) (he : e < graph.numHyperedges) (ht : target < model.numParts) :
    PulledInto model graph state e target (state.committed model graph e target) := by
  obtain ⟨hyperedge, _, hsome, hpins⟩ := Hypergraph.hyperedge?_of_lt he
  have hcommitted := h.committed hg (e := e) ht
  have hblocks := h.admits.map_blockOf_gather_pins hg e target
  constructor
  . refine ⟨hyperedge, hsome, ?_, ?_⟩
    . intro v
      rw [h.solution_committed hg ht, h.admits.getElem?_gather_pins hg ht, hpins]
    . rw [hcommitted.netDegrees_eq, CostModel.getElem?_degreeTable he, h.solution_committed hg ht,
        hblocks, Degrees.count_replicate, hpins]
  . refine ⟨_, hcommitted.admits.cutHyperedges hg, ?_⟩
    -- Blocks that are all the same are not apart.
    rw [List.mem_filter, not_and, h.solution_committed hg ht]
    intro _
    unfold Hypergraph.cut
    rw [hblocks, apart_iff]
    rintro ⟨a, ha, b, hb, hne⟩
    exact hne ((List.eq_of_mem_replicate ha).trans (List.eq_of_mem_replicate hb).symm)

theorem gain_and_commit_agree [ExactScalar α] (hgraph : graph.Reachable)
    (htruth : PartitionState.ofSolution model graph state.solution = .ok state)
    (he : e < graph.numHyperedges) (ht : target < model.numParts) :
    ∃ move next before after,
      model.gain? graph state e target = some move ∧
      model.commit graph state move = .ok (move.gain, next) ∧
      model.score graph state.solution = .ok before ∧
      model.score graph next.solution = .ok after ∧
      move.gain = before.cost - after.cost ∧
      PulledInto model graph state e target next := by
  have hg := hgraph.wellFormed
  have h := (PartitionState.ofSolution_eq_ok_iff hg).mp htruth
  have hcommitted := h.committed hg (e := e) ht
  refine ⟨_, _, _, _, h.gain?_eq hg he ht, h.commit_eq hg ht he rfl, h.admits.score hg,
    hcommitted.admits.score hg, ?_, h.pulledInto_committed hg he ht⟩
  rw [h.solution_committed hg ht]
  exact h.admits.price_eq hg e target

theorem gain_and_commit_agree_chain :
    ∃ move next before after,
      CostModel.standard.gain? Hypergraph.chain .chain 0 1 = some move ∧
      CostModel.standard.commit Hypergraph.chain .chain move = .ok (move.gain, next) ∧
      CostModel.standard.score Hypergraph.chain #[0, 1, 0] = .ok before ∧
      CostModel.standard.score Hypergraph.chain next.solution = .ok after ∧
      move.gain = before.cost - after.cost ∧
      PulledInto .standard .chain .chain 0 1 next :=
  gain_and_commit_agree Hypergraph.reachable_chain PartitionState.ofSolution_chain
    (by decide) (by decide)

end CircuitPartition
