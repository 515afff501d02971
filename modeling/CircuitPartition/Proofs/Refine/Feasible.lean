import CircuitPartition.Proofs.Refine.Capacity

/-!
A block leaves its bound behind only by losing pins of negative weight: legality is asked of the
block that the pins go to, not of those that they come from. Where no pin has a negative weight,
what is within its bounds stays so.
-/

namespace CircuitPartition

variable {α : Type} [ExactScalar α]

def Hypergraph.NonnegIn (graph : Hypergraph α) (d : Nat) : Prop :=
  ∀ e, ∀ v ∈ graph.pins e, 0 ≤ (graph.weight v)[d]?.getD 0

variable {model : CostModel α} {graph : Hypergraph α} {bounds : Balance α}

namespace PartitionState.InStep

variable {state : PartitionState α} (h : state.InStep model graph) (hg : graph.WellFormed)
  (hb : bounds.HasShape model.numParts graph.dimensions.vertex) {block d : Nat}
  (hnonneg : graph.NonnegIn d)
  (hwithin : state.blockBalance.entry block d ≤ bounds.entry block d)

include h hg hb hnonneg hwithin

theorem within_committed {e target : Nat} (ht : target < model.numParts)
    (hlegal : CostModel.legal graph bounds state e target = true) :
    (state.committed model graph e target).blockBalance.entry block d ≤ bounds.entry block d := by
  by_cases hblock : block = target
  . subst hblock
    exact h.entry_committed_le hg hb ht hlegal d
  . apply le_trans _ hwithin
    apply entry_gathered_le _ hblock
    intro v hv
    exact hnonneg e v (Hypergraph.mem_movers.mp hv).left

theorem within_passed (limits : RefineLimits) :
    (model.passed graph bounds limits state).state.blockBalance.entry block d
      ≤
    bounds.entry block d := by
  apply And.right
  apply visited_induction hg
    (P := fun pass => pass.state.blockBalance.entry block d ≤ bounds.entry block d)
  . intro pass e hpass
    exact hpass
  . intro pass e _ hstate hpass
    cases CostModel.improved_cases pass e with
    | inl heq =>
      rw [heq]
      exact hpass
    | inr hmove =>
      obtain ⟨target, ht, hlegal, _, heq⟩ := hmove
      rw [heq]
      exact hstate.within_committed hg hb hnonneg hpass ht hlegal
  . exact h
  . exact hwithin

theorem within_runPasses (limits : RefineLimits) (n : Nat) :
    ((model.runPasses graph limits bounds n state).reached state).blockBalance.entry block d
      ≤
    bounds.entry block d := by
  induction n generalizing state with
  | zero => exact hwithin
  | succ n ih =>
    have hpassed := h.within_passed hg hb hnonneg hwithin limits
    rw [h.runPasses_succ hg hb limits]
    split
    . exact hpassed
    . rw [Passes.reached_cons]
      exact ih (h.passed bounds hg limits) hpassed

end PartitionState.InStep

theorem pass_and_refine_keep_feasible (limits : RefineLimits) {state : PartitionState α}
    (hgraph : graph.Reachable)
    (htruth : PartitionState.ofSolution model graph state.solution = .ok state)
    (hbounds : bounds.HasShape model.numParts graph.dimensions.vertex) :
    ∃ pass summary,
      model.pass graph limits bounds state = .ok pass ∧
      (model.refine graph limits bounds state).outcome = .ok summary ∧
      ∀ block d, graph.NonnegIn d →
        state.blockBalance.entry block d ≤ bounds.entry block d →
        pass.state.blockBalance.entry block d ≤ bounds.entry block d ∧
          (model.refine graph limits bounds state).state.blockBalance.entry block d
            ≤ bounds.entry block d := by
  have hg := hgraph.wellFormed
  have h := (PartitionState.ofSolution_eq_ok_iff hg).mp htruth
  rw [h.refine_eq hg hbounds limits]
  refine ⟨_, _, h.pass_eq hg hbounds limits, rfl, ?_⟩
  intro block d hnonneg hwithin
  constructor
  . exact h.within_passed hg hbounds hnonneg hwithin limits
  . exact h.within_runPasses hg hbounds hnonneg hwithin limits limits.maxPasses

theorem pass_and_refine_keep_feasible_chain :
    ∃ pass, CostModel.standard.pass .chain .standard #[[4], [0]] .chain = .ok pass ∧
      pass.state.blockBalance.entry 0 0 ≤ Balance.entry (#[[4], [0]] : Balance ℚ) 0 0 := by
  have hnonneg : Hypergraph.chain.NonnegIn 0 := by
    intro e v _
    exact Hypergraph.nonneg_weight (by decide) v 0
  have hbounds : Balance.HasShape 2 1 (#[[4], [0]] : Balance ℚ) := ⟨rfl, by simp⟩
  obtain ⟨pass, _, hpass, _, hwithin⟩ := pass_and_refine_keep_feasible .standard
    Hypergraph.reachable_chain PartitionState.ofSolution_chain hbounds
  exact ⟨pass, hpass, (hwithin 0 0 hnonneg (by decide)).left⟩

def Hypergraph.buoyant : Hypergraph ℚ where
  dimensions := ⟨1, 1, 0⟩
  vertices := #[⟨[5], []⟩, ⟨[-3], []⟩, ⟨[1], []⟩]
  hyperedges := #[⟨[1, 2], [1]⟩]
  vertexHyperedges := #[[], [0], [0]]
  timing := none

theorem Hypergraph.reachable_buoyant : Hypergraph.buoyant.Reachable := by
  have hempty := Builder.Reachable.empty (α := ℚ) 1 1
  have hv0 := hempty.addVertex [5] [] rfl
  have hv1 := hv0.addVertex [-3] [] rfl
  have hv2 := hv1.addVertex [1] [] rfl
  have he0 := hv2.addHyperedge [1, 2] [1] rfl
  exact .build he0 (by decide +kernel)

def PartitionState.buoyant : PartitionState ℚ :=
  ⟨#[0, 0, 1], #[[2], [1]], #[#[1, 1]], #[]⟩

theorem overfull_buoyant :
    Hypergraph.buoyant.Reachable ∧
      CostModel.standard.accept Hypergraph.buoyant = .ok () ∧
      PartitionState.ofSolution .standard .buoyant PartitionState.buoyant.solution
        = .ok .buoyant ∧
      (∀ block < 2, PartitionState.buoyant.blockBalance.entry block 0
        ≤ Balance.entry #[[2], [2]] block 0) ∧
      (CostModel.standard.refine .buoyant .standard #[[2], [2]] .buoyant).state.blockBalance
        = #[[5], [-2]] ∧
      ∃ pass, CostModel.standard.pass .buoyant .standard #[[2], [2]] .buoyant = .ok pass ∧
        Balance.entry #[[2], [2]] 0 0 < pass.state.blockBalance.entry 0 0 := by
  refine ⟨Hypergraph.reachable_buoyant, by decide +kernel, by decide +kernel, by decide,
    by decide +kernel, ?_⟩
  refine ⟨⟨⟨#[0, 1, 1], #[[5], [-2]], #[#[0, 2]], #[]⟩, 1, 1, [⟨0, some 1, 1, -2⟩], none⟩, ?_, ?_⟩
  . decide +kernel
  . decide

end CircuitPartition
