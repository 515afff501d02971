import CircuitPartition.Proofs.Graph.Reachable
import CircuitPartition.Proofs.Refine.Locality
import CircuitPartition.Proofs.Refine.Run

/-!
With exact arithmetic, the gains that passes report are what the cost really falls by, and it never
rises.
-/

namespace CircuitPartition

variable {α : Type} [ExactScalar α]

theorem Gain.tolerance_pos : 0 < (Gain.tolerance : α) := by
  unfold Gain.tolerance
  norm_num

theorem Gain.isBetter_iff {a b : Gain α} (h : a.weightSum = b.weightSum) :
    a.isBetter b = true ↔ b.gain + Gain.tolerance < a.gain := by
  have htolerance : (0 : α) < Gain.tolerance := Gain.tolerance_pos
  unfold Gain.isBetter
  dsimp only
  rw [ExactScalar.abs_eq_abs]
  split
  -- Pins of one hyperedge are equally heavy, so between close gains neither move is better.
  . next hclose =>
    have := le_of_abs_le hclose
    rw [h, decide_eq_true_eq]
    constructor
    . intro hlt
      exact absurd hlt (lt_irrefl _)
    . intro hlt
      linarith
  . next hfar =>
    rw [not_le, lt_abs] at hfar
    rw [decide_eq_true_eq]
    constructor
    . intro hlt
      cases hfar with
      | inl hfar => linarith
      | inr hfar => linarith
    . intro hlt
      linarith

variable {model : CostModel α} {graph : Hypergraph α} {bounds : Balance α}

namespace CostModel

variable (model graph bounds) in
theorem gain_bestMove_nonneg (state : PartitionState α) (e : Nat) :
    0 ≤ (model.bestMove graph bounds state e).gain := by
  have hbest : (model.bestMove graph bounds state e).weightSum = model.pinNormSum graph e ∧
      0 ≤ (model.bestMove graph bounds state e).gain := by
    apply bestMove_induction
      (P := fun best => best.weightSum = model.pinNormSum graph e ∧ 0 ≤ best.gain)
    . exact ⟨rfl, le_refl 0⟩
    . rintro best target _ _ hbetter ⟨hweight, hgain⟩
      refine ⟨rfl, ?_⟩
      rw [Gain.isBetter_iff hweight.symm] at hbetter
      have htolerance : (0 : α) < Gain.tolerance := Gain.tolerance_pos
      linarith
  exact hbest.right

end CostModel

structure Pass.Accounts (model : CostModel α) (graph : Hypergraph α) (start : Solution)
    (pass : Pass α) : Prop where
  nonneg : 0 ≤ pass.gain
  gain_eq : pass.gain = model.cost graph start - model.cost graph pass.state.solution

theorem Pass.Accounts.improved {start : Solution} {pass : Pass α} {e : Nat}
    (h : pass.Accounts model graph start) (hstate : pass.state.InStep model graph)
    (hg : graph.WellFormed) : (model.improved graph bounds pass e).Accounts model graph start := by
  cases CostModel.improved_cases pass e with
  | inl heq =>
    rw [heq]
    constructor
    . rw [add_zero]
      exact h.nonneg
    . rw [add_zero]
      exact h.gain_eq
  | inr hmove =>
    obtain ⟨target, ht, _, hbest, heq⟩ := hmove
    have hprice : 0 ≤ model.price graph pass.state.solution e target := by
      have := model.gain_bestMove_nonneg graph bounds pass.state e
      rw [hbest] at this
      exact this
    rw [heq]
    constructor
    . exact add_nonneg h.nonneg hprice
    . dsimp only
      rw [h.gain_eq, hstate.solution_committed hg ht, hstate.admits.price_eq hg]
      abel

namespace PartitionState.InStep

variable {state : PartitionState α} (h : state.InStep model graph) (hg : graph.WellFormed)

include h hg

variable (bounds) in
theorem accounts_passed (limits : RefineLimits) :
    (model.passed graph bounds limits state).Accounts model graph state.solution := by
  apply And.right
  apply visited_induction hg (P := Pass.Accounts model graph state.solution)
  . intro pass e hpass
    exact ⟨hpass.nonneg, hpass.gain_eq⟩
  . intro pass e _ hstate hpass
    exact hpass.improved hstate hg
  . exact h
  . exact ⟨le_refl 0, (sub_self _).symm⟩

variable (hb : bounds.HasShape model.numParts graph.dimensions.vertex) (limits : RefineLimits)

include hb

theorem length_runPasses_le (n : Nat) :
    (model.runPasses graph limits bounds n state).done.length ≤ n := by
  induction n generalizing state with
  | zero => simp [CostModel.runPasses_zero]
  | succ n ih =>
    rw [h.runPasses_succ hg hb limits]
    split
    . simp
    . have := ih (h.passed bounds hg limits)
      rw [List.length_cons]
      omega

theorem sum_gain_runPasses (n : Nat) :
    0 ≤ ((model.runPasses graph limits bounds n state).done.map (·.gain)).sum ∧
      ((model.runPasses graph limits bounds n state).done.map (·.gain)).sum
        =
      model.cost graph state.solution
        - model.cost graph
          ((model.runPasses graph limits bounds n state).reached state).solution := by
  induction n generalizing state with
  | zero => simp [CostModel.runPasses_zero, Passes.reached]
  | succ n ih =>
    have hpass := h.accounts_passed bounds hg limits
    rw [h.runPasses_succ hg hb limits]
    split
    . simp [Passes.reached, hpass.nonneg, hpass.gain_eq.symm]
    . obtain ⟨hnonneg, hsum⟩ := ih (h.passed bounds hg limits)
      rw [Passes.reached_cons, List.map_cons, List.sum_cons]
      constructor
      . exact add_nonneg hpass.nonneg hnonneg
      . rw [hsum, hpass.gain_eq]
        abel

end PartitionState.InStep

theorem pass_and_refine_account (limits : RefineLimits) {state : PartitionState α}
    (hgraph : graph.Reachable)
    (htruth : PartitionState.ofSolution model graph state.solution = .ok state)
    (hbounds : bounds.HasShape model.numParts graph.dimensions.vertex) :
    ∃ before, model.score graph state.solution = .ok before ∧
      (∃ pass after, model.pass graph limits bounds state = .ok pass ∧
        model.score graph pass.state.solution = .ok after ∧
        0 ≤ pass.gain ∧ pass.gain = before.cost - after.cost) ∧
      ∃ summary after, (model.refine graph limits bounds state).outcome = .ok summary ∧
        model.score graph (model.refine graph limits bounds state).state.solution = .ok after ∧
        summary.passes ≤ limits.maxPasses ∧
        summary.totalGain = summary.costBefore - summary.costAfter ∧
        summary.costAfter ≤ summary.costBefore ∧
        summary.costBefore = before.cost ∧ summary.costAfter = after.cost := by
  have hg := hgraph.wellFormed
  have h := (PartitionState.ofSolution_eq_ok_iff hg).mp htruth
  have hpassed := h.passed bounds hg limits
  have haccounts := h.accounts_passed bounds hg limits
  have hrun := h.runPasses hg limits bounds limits.maxPasses
  obtain ⟨hnonneg, hsum⟩ := h.sum_gain_runPasses hg hbounds limits limits.maxPasses
  refine ⟨_, h.admits.score hg, ?_, ?_⟩
  . exact ⟨_, _, h.pass_eq hg hbounds limits, hpassed.admits.score hg, haccounts.nonneg,
      haccounts.gain_eq⟩
  . rw [h.refine_eq hg hbounds limits]
    refine ⟨_, _, rfl, hrun.left.admits.score hg, ?_, ?_, ?_, rfl, rfl⟩
    . exact h.length_runPasses_le hg hbounds limits limits.maxPasses
    . dsimp only
      rw [ExactScalar.sum_eq_sum, hsum]
      rfl
    . dsimp only
      rw [hsum] at hnonneg
      exact sub_nonneg.mp hnonneg

theorem pass_and_refine_account_chain :
    ∃ summary, (CostModel.standard.refine Hypergraph.chain .standard #[[4], [4]] .chain).outcome
        = .ok summary ∧
      summary.passes ≤ 2 ∧ summary.totalGain = summary.costBefore - summary.costAfter ∧
      summary.costAfter ≤ summary.costBefore := by
  have hbounds : Balance.HasShape 2 1 (#[[4], [4]] : Balance ℚ) := ⟨rfl, by simp⟩
  obtain ⟨_, _, _, summary, _, houtcome, _, hpasses, htotal, hle, _⟩ := pass_and_refine_account
    .standard Hypergraph.reachable_chain PartitionState.ofSolution_chain hbounds
  exact ⟨summary, houtcome, hpasses, htotal, hle⟩

end CircuitPartition
