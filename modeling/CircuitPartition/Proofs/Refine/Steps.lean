import CircuitPartition.Proofs.Refine.Drift
import Mathlib.Logic.Relation

/-!
Whatever is done to a maintained state comes down to single steps: a vertex is moved, or the paths
are priced again.
-/

namespace CircuitPartition

open Relation

variable {α : Type} [Scalar α]

namespace PartitionState

inductive Step (model : CostModel α) (graph : Hypergraph α) :
    PartitionState α → PartitionState α → Prop where
  | moved (state : PartitionState α) {v target : Nat} :
    v < graph.numVertices → target < model.numParts →
    Step model graph state (state.moved model graph target v)
  | priced (state : PartitionState α) (pathCosts : Array α) :
    Step model graph state { state with pathCosts }

variable {model : CostModel α} {graph : Hypergraph α} {state : PartitionState α} {target : Nat}

theorem steps_gathered (ht : target < model.numParts) {vertices : List Nat}
    (hv : ∀ v ∈ vertices, v < graph.numVertices) :
    ReflTransGen (Step model graph) state (state.gathered model graph vertices target) := by
  unfold gathered
  induction vertices generalizing state with
  | nil => exact .refl
  | cons v vertices ih =>
    rw [List.forall_mem_cons] at hv
    exact .head (.moved state hv.left ht) (ih hv.right)

theorem steps_committed (hg : graph.WellFormed) (ht : target < model.numParts) (e : Nat) :
    ReflTransGen (Step model graph) state (state.committed model graph e target) :=
  .tail (steps_gathered ht hg.lt_of_mem_movers) (.priced _ _)

namespace InStep

variable (h : state.InStep model graph) (hg : graph.WellFormed) (limits : RefineLimits)
  (bounds : Balance α)

include h hg

theorem steps_passed :
    ReflTransGen (Step model graph) state (model.passed graph bounds limits state).state := by
  apply And.right
  apply visited_induction hg (P := fun pass => ReflTransGen (Step model graph) state pass.state)
  . intro pass e hsteps
    exact hsteps
  . intro pass e _ _ hsteps
    cases CostModel.improved_cases pass e with
    | inl heq =>
      rw [heq]
      exact hsteps
    | inr hmove =>
      obtain ⟨target, ht, _, _, heq⟩ := hmove
      rw [heq]
      exact hsteps.trans (steps_committed hg ht e)
  . exact h
  . exact .refl

theorem steps_runPasses (n : Nat) :
    ReflTransGen (Step model graph) state
      ((model.runPasses graph limits bounds n state).reached state) := by
  induction n generalizing state with
  | zero => exact .refl
  | succ n ih =>
    have hpassed := h.steps_passed hg limits bounds
    rw [CostModel.runPasses_succ]
    cases h.pass_cases bounds hg limits with
    | inl hok =>
      rw [hok]
      dsimp only
      split
      . exact hpassed
      . rw [Passes.reached_cons]
        exact hpassed.trans (ih (h.passed bounds hg limits))
    | inr herror =>
      obtain ⟨cause, herror⟩ := herror
      rw [herror]
      exact .refl

theorem state_refine :
    (model.refine graph limits bounds state).state
      =
    (model.runPasses graph limits bounds limits.maxPasses state).reached state := by
  unfold CostModel.refine Counting.refine Passes.reached
  rw [CostModel.unbounded_runPasses]
  rw [h.admits.score hg]
  dsimp only
  split
  . rfl
  . rfl
  . rfl

omit limits bounds in
theorem steps_perform {operation : Operation α} (hrange : operation.InRange model graph) :
    ReflTransGen (Step model graph) state (model.perform graph state operation).state := by
  unfold CostModel.perform
  cases operation with
  | commit gain =>
    cases htarget : gain.target with
    | none =>
      have hstay : model.commit graph state gain = .ok (0, state) := by
        unfold CostModel.commit Counting.commit
        rw [PartitionState.unbounded_move]
        rw [htarget]
        rfl
      dsimp only
      rw [hstay]
    | some target =>
      have ht := hrange.right target htarget
      dsimp only
      rw [h.commit_eq hg ht hrange.left htarget]
      exact steps_committed hg ht gain.hyperedge
  | move v target =>
    dsimp only
    rw [h.moveAndRefresh_eq hg hrange.left hrange.right]
    exact .tail (.single (.moved state hrange.left hrange.right)) (.priced _ _)
  | pass limits bounds =>
    dsimp only
    cases h.pass_cases bounds hg limits with
    | inl hok =>
      rw [hok]
      exact h.steps_passed hg limits bounds
    | inr herror =>
      obtain ⟨cause, herror⟩ := herror
      rw [herror]
  | refine limits bounds =>
    dsimp only
    rw [h.state_refine hg limits bounds]
    exact h.steps_runPasses hg limits bounds limits.maxPasses

omit limits bounds in
theorem steps_performAll {operations : List (Operation α)}
    (hrange : ∀ operation ∈ operations, operation.InRange model graph) :
    ReflTransGen (Step model graph) state (model.performAll graph state operations) := by
  unfold CostModel.performAll
  induction operations generalizing state with
  | nil => exact .refl
  | cons operation operations ih =>
    rw [List.forall_mem_cons] at hrange
    have hnext := (h.perform hg hrange.left).left
    exact (h.steps_perform hg hrange.left).trans (ih hnext hrange.right)

end InStep

end PartitionState

end CircuitPartition
