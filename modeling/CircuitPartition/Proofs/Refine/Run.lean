import CircuitPartition.Proofs.Refine.Pass

/-!
Refinement as a row of passes, each from the state that the last one has reached.
-/

namespace CircuitPartition

def Passes.reached {α : Type} (run : Passes α) (start : PartitionState α) : PartitionState α :=
  (run.done.getLast?.map (·.state)).getD start

theorem Passes.reached_cons {α : Type} (pass : Pass α) (run : Passes α)
    (start : PartitionState α) (failure : Option (Failure α)) :
    Passes.reached ⟨pass :: run.done, failure⟩ start = run.reached pass.state := by
  unfold Passes.reached
  rw [List.getLast?_cons]
  cases run.done.getLast? with
  | none => rfl
  | some last => rfl

namespace PartitionState.InStep

open CostModel

section Rounded

variable {α : Type} [Scalar α] {model : CostModel α} {graph : Hypergraph α}
  {state : PartitionState α} (h : state.InStep model graph) (hg : graph.WellFormed)
  (limits : RefineLimits) (bounds : Balance α)

include h hg

theorem runPasses (n : Nat) :
    ((model.runPasses graph limits bounds n state).reached state).InStep model graph ∧
      ∀ fault, (model.runPasses graph limits bounds n state).failure ≠ some (.fault fault) := by
  induction n generalizing state with
  | zero => exact ⟨h, nofun⟩
  | succ n ih =>
    rw [CostModel.runPasses_succ]
    cases h.pass_cases bounds hg limits with
    | inl hok =>
      have hpassed := h.passed bounds hg limits
      rw [hok]
      dsimp only
      split
      . simp [Passes.reached, hpassed]
      . rw [Passes.reached_cons]
        exact ih hpassed
    | inr herror =>
      obtain ⟨cause, herror⟩ := herror
      rw [herror]
      simp [Passes.reached, h]

theorem refine :
    (model.refine graph limits bounds state).state.InStep model graph ∧
      ∀ fault, (model.refine graph limits bounds state).outcome ≠ .error (.fault fault) := by
  obtain ⟨hreached, hfailure⟩ := h.runPasses hg limits bounds limits.maxPasses
  unfold Passes.reached at hreached
  unfold CostModel.refine Counting.refine
  rw [CostModel.unbounded_runPasses]
  rw [h.admits.score hg]
  dsimp only
  rw [hreached.admits.score hg]
  split
  . next _ failure heq =>
    refine ⟨hreached, ?_⟩
    intro fault hfault
    rw [Except.error.injEq] at hfault
    rw [hfault] at heq
    exact hfailure fault heq
  . next heq => simp at heq
  . exact ⟨hreached, by simp⟩

end Rounded

variable {α : Type} [ExactScalar α] {model : CostModel α} {graph : Hypergraph α}
  {bounds : Balance α} {state : PartitionState α} (h : state.InStep model graph)
  (hg : graph.WellFormed) (hb : bounds.HasShape model.numParts graph.dimensions.vertex)
  (limits : RefineLimits)

include h hg hb

theorem runPasses_succ (n : Nat) :
    model.runPasses graph limits bounds (n + 1) state
      =
    if (model.passed graph bounds limits state).gain ≤ 0 then
      ⟨[model.passed graph bounds limits state], none⟩
    else
      ⟨model.passed graph bounds limits state ::
        (model.runPasses graph limits bounds n (model.passed graph bounds limits state).state).done,
        (model.runPasses graph limits bounds n (model.passed graph bounds limits state).state).failure⟩
    := by
  rw [CostModel.runPasses_succ, h.pass_eq hg hb limits]

theorem failure_runPasses (n : Nat) :
    (model.runPasses graph limits bounds n state).failure = none := by
  induction n generalizing state with
  | zero => rfl
  | succ n ih =>
    rw [h.runPasses_succ hg hb limits]
    split
    . rfl
    . exact ih (h.passed bounds hg limits)

theorem refine_eq :
    let run := model.runPasses graph limits bounds limits.maxPasses state
    model.refine graph limits bounds state
      =
    ⟨run.reached state, run.done, .ok {
      passes := run.done.length
      totalGain := Scalar.sum (run.done.map (·.gain))
      costBefore := (model.scoreTable graph state.solution).cost
      costAfter := (model.scoreTable graph (run.reached state).solution).cost }⟩ := by
  have hreached := (h.runPasses hg limits bounds limits.maxPasses).left
  have hfailure := h.failure_runPasses hg hb limits limits.maxPasses
  unfold Passes.reached at hreached ⊢
  unfold CostModel.refine Counting.refine
  rw [CostModel.unbounded_runPasses]
  rw [h.admits.score hg]
  dsimp only
  rw [hreached.admits.score hg, hfailure]

end PartitionState.InStep

end CircuitPartition
