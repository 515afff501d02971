import CircuitPartition.Proofs.Partition.Shape

/-!
The checks of a state. What passes them agrees with its solution up to the tolerance of the check;
what is in step has the right shape, and with exact arithmetic no drift is ever found in it.
-/

namespace CircuitPartition

section Differences

variable {β : Type} {as bs : List β} {f : β → β → Bool}

theorem find?_zip_eq_none :
    ((as.zip bs).zipIdx.find? fun ((a, b), _) => f a b) = none
      ↔
    ∀ (i : Nat) a b, as[i]? = some a → bs[i]? = some b → f a b = false := by
  rw [List.find?_eq_none]
  simp only [Prod.forall, List.mem_zipIdx_iff_getElem?, List.getElem?_zip_eq_some, and_imp,
    Bool.not_eq_true]
  constructor
  . intro h i a b
    exact h a b i
  . intro h a b i
    exact h i a b

theorem find?_zip_eq_some {i : Nat} {a b : β}
    (h : ((as.zip bs).zipIdx.find? fun ((a, b), _) => f a b) = some ((a, b), i)) :
    as[i]? = some a ∧ bs[i]? = some b ∧ f a b = true := by
  have hmem := List.mem_of_find?_eq_some h
  have hf := List.find?_some h
  rw [List.mem_zipIdx_iff_getElem?, List.getElem?_zip_eq_some] at hmem
  exact ⟨hmem.left, hmem.right, hf⟩

variable (bs) in
theorem find?_zip_self (hf : ∀ b, f b b = false) :
    ((bs.zip bs).zipIdx.find? fun ((ours, theirs), _) => f ours theirs) = none := by
  rw [find?_zip_eq_none]
  intro i a b ha hb
  rw [ha, Option.some.injEq] at hb
  rw [← hb]
  exact hf a

end Differences

def PreconditionError.Drifted {α : Type} [Scalar α] (cause : PreconditionError α) : Prop :=
  (∃ block expected actual, cause = .blockBalanceDrift block expected actual)
    ∨
  ∃ p cost, cause = .pathCostDrift p cost cost ∧
    approxEq cost cost PartitionState.driftTolerance = false

namespace PartitionState

section Rounded

variable {α : Type} [Scalar α] {model : CostModel α} {graph : Hypergraph α}
  {state : PartitionState α}

theorem InStep.shaped (h : state.InStep model graph) : state.Shaped model graph where
  admits := h.admits
  size_netDegrees := by
    rw [h.netDegrees_eq]
    simp [CostModel.degreeTable, Hypergraph.numHyperedges]
  size_degrees := by
    rw [h.netDegrees_eq]
    simp [CostModel.degreeTable]
  hasShape := h.hasShape
  size_pathCosts := h.size_pathCosts

theorem InStep.checkShape (h : state.InStep model graph) :
    state.checkShape model graph = .ok () :=
  checkShape_eq_ok.mpr h.shaped

theorem Shaped.checkConsistency_eq (h : state.Shaped model graph) (hg : graph.WellFormed) :
    state.checkConsistency model graph
      =
    match state.findDrift (recomputed model graph state.solution) with
    | some cause => .error (.precondition cause)
    | none => .ok () := by
  unfold checkConsistency
  rw [checkShape_eq_ok.mpr h, ok_bind, ofSolution_of_admits hg h.admits, ok_bind]
  rfl

theorem InStep.checkConsistency_cases (h : state.InStep model graph) (hg : graph.WellFormed) :
    state.checkConsistency model graph = .ok () ∨
      ∃ cause, state.checkConsistency model graph = .error (.precondition cause) := by
  rw [h.shaped.checkConsistency_eq hg]
  split
  . next cause _ => exact .inr ⟨cause, rfl⟩
  . exact .inl rfl

theorem getElem?_recomputed_pathCosts {solution : Solution} {p : Nat} (hp : p < graph.numPaths) :
    (recomputed model graph solution).pathCosts[p]?
      =
    some (model.walkCost graph solution.blockOf p) := by
  simp [recomputed, CostModel.costTable, hp]

theorem eq_of_findDrift {truth : PartitionState α} (h : state.findDrift truth = none) :
    (∀ (e : Nat) ours theirs, state.netDegrees[e]? = some ours →
      truth.netDegrees[e]? = some theirs → ours = theirs) ∧
    (∀ (block : Nat) ours theirs, state.blockBalance[block]? = some ours →
      truth.blockBalance[block]? = some theirs → sameWeights ours theirs = true) ∧
    ∀ (p : Nat) ours theirs, state.pathCosts[p]? = some ours →
      truth.pathCosts[p]? = some theirs → approxEq ours theirs driftTolerance = true := by
  unfold findDrift at h
  dsimp only at h
  split at h
  . simp at h
  . next hdegrees =>
    split at h
    . simp at h
    . next hbalances =>
      split at h
      . simp at h
      . next hcosts =>
        have hequal := find?_zip_eq_none
          (f := fun ours theirs => decide (ours ≠ theirs)).mp hdegrees
        have hsame := find?_zip_eq_none
          (f := fun ours theirs => !sameWeights ours theirs).mp hbalances
        have hnear := find?_zip_eq_none
          (f := fun ours theirs => !approxEq ours theirs driftTolerance).mp hcosts
        simpa using And.intro hequal (And.intro hsame hnear)

theorem findDrift_cases {truth : PartitionState α} {cause : PreconditionError α}
    (h : state.findDrift truth = some cause) :
    (∃ e : Nat, ∃ ours theirs, state.netDegrees[e]? = some ours ∧
      truth.netDegrees[e]? = some theirs ∧ ours ≠ theirs) ∨
    (∃ block : Nat, ∃ ours theirs, state.blockBalance[block]? = some ours ∧
      truth.blockBalance[block]? = some theirs ∧ sameWeights ours theirs = false ∧
      cause = .blockBalanceDrift block theirs ours) ∨
    ∃ p : Nat, ∃ ours theirs, state.pathCosts[p]? = some ours ∧
      truth.pathCosts[p]? = some theirs ∧ approxEq ours theirs driftTolerance = false ∧
      cause = .pathCostDrift p theirs ours := by
  unfold findDrift at h
  dsimp only at h
  split at h
  . next ours theirs e hfind =>
    have hdiffer := find?_zip_eq_some (f := fun ours theirs => decide (ours ≠ theirs)) hfind
    exact .inl ⟨e, ours, theirs, by simpa using hdiffer⟩
  . split at h
    . next ours theirs block hfind =>
      rw [Option.some.injEq] at h
      have hdiffer := find?_zip_eq_some (f := fun ours theirs => !sameWeights ours theirs) hfind
      rw [Array.getElem?_toList, Array.getElem?_toList, Bool.not_eq_true'] at hdiffer
      exact .inr (.inl ⟨block, ours, theirs, hdiffer.left, hdiffer.right.left, hdiffer.right.right,
        h.symm⟩)
    . split at h
      . next ours theirs p hfind =>
        rw [Option.some.injEq] at h
        have hdiffer := find?_zip_eq_some
          (f := fun ours theirs => !approxEq ours theirs driftTolerance) hfind
        rw [Array.getElem?_toList, Array.getElem?_toList, Bool.not_eq_true'] at hdiffer
        exact .inr (.inr ⟨p, ours, theirs, hdiffer.left, hdiffer.right.left, hdiffer.right.right,
          h.symm⟩)
      . simp at h

structure Agrees (model : CostModel α) (graph : Hypergraph α) (state : PartitionState α) : Prop
    extends state.Counted model graph where
  pathCosts_near : ∀ p cost, state.pathCosts[p]? = some cost →
    cost = model.walkCost graph state.solution.blockOf p ∨
      approxEq cost (model.walkCost graph state.solution.blockOf p) driftTolerance = true

theorem agrees_of_checkConsistency (hg : graph.WellFormed)
    (h : state.checkConsistency model graph = .ok ()) : state.Agrees model graph := by
  have hshaped : state.Shaped model graph := by
    unfold checkConsistency at h
    rw [check_bind_eq_ok, checkShape_eq_ok] at h
    exact h.left
  rw [hshaped.checkConsistency_eq hg] at h
  have hdrift : state.findDrift (recomputed model graph state.solution) = none := by
    split at h
    . simp at h
    . next hdrift => exact hdrift
  obtain ⟨hdegrees, _, hcosts⟩ := eq_of_findDrift hdrift
  refine ⟨⟨hshaped, ?_⟩, ?_⟩
  . apply Array.ext
    . rw [hshaped.size_netDegrees]
      simp [CostModel.degreeTable, Hypergraph.numHyperedges]
    . intro e he he'
      exact hdegrees e _ _ (Array.getElem?_eq_getElem he) (Array.getElem?_eq_getElem he')
  . intro p cost hcost
    obtain ⟨hp, _⟩ := Array.getElem?_eq_some_iff.mp hcost
    rw [hshaped.size_pathCosts] at hp
    exact .inr (hcosts p _ _ hcost (getElem?_recomputed_pathCosts hp))

theorem Agrees.drifted (h : state.Agrees model graph) (hg : graph.WellFormed) {failure : Failure α}
    (hcheck : state.checkConsistency model graph = .error failure) :
    ∃ cause, failure = .precondition cause ∧ cause.Drifted := by
  rw [h.checkConsistency_eq hg] at hcheck
  split at hcheck
  . next cause hdrift =>
    rw [Except.error.injEq] at hcheck
    refine ⟨cause, hcheck.symm, ?_⟩
    rcases findDrift_cases hdrift with hdegrees | hbalance | hcost
    . obtain ⟨e, ours, theirs, hours, htheirs, hne⟩ := hdegrees
      rw [h.netDegrees_eq] at hours
      exact absurd (Option.some.inj (hours.symm.trans htheirs)) hne
    . obtain ⟨block, ours, theirs, _, _, _, rfl⟩ := hbalance
      exact .inl ⟨block, theirs, ours, rfl⟩
    . obtain ⟨p, ours, theirs, hours, htheirs, hfar, rfl⟩ := hcost
      obtain ⟨hp, _⟩ := Array.getElem?_eq_some_iff.mp hours
      rw [h.size_pathCosts] at hp
      rw [getElem?_recomputed_pathCosts hp, Option.some.injEq] at htheirs
      subst htheirs
      cases h.pathCosts_near p ours hours with
      | inl heq =>
        rw [heq] at hfar ⊢
        exact .inr ⟨p, _, rfl, hfar⟩
      | inr hnear =>
        rw [hfar] at hnear
        exact absurd hnear (by simp)
  . simp at hcheck

end Rounded

variable {α : Type} [ExactScalar α] {model : CostModel α} {graph : Hypergraph α}
  {state : PartitionState α}

theorem driftTolerance_nonneg : (0 : α) ≤ driftTolerance := by
  unfold driftTolerance
  norm_num

theorem sameWeights_self (row : List α) : sameWeights row row = true := by
  unfold sameWeights
  rw [List.zip_eq_zipWith, List.zipWith_self]
  simp only [List.all_map, List.all_eq_true, Function.comp_apply]
  intro a _
  exact ExactScalar.approxEq_self a _ driftTolerance_nonneg

theorem findDrift_self (state : PartitionState α) : state.findDrift state = none := by
  have hdegrees := find?_zip_self state.netDegrees.toList
    (f := fun ours theirs => decide (ours ≠ theirs)) (by simp)
  have hbalances := find?_zip_self state.blockBalance.toList
    (f := fun ours theirs => !sameWeights ours theirs) (by simp [sameWeights_self])
  have hcosts := find?_zip_self state.pathCosts.toList
    (f := fun ours theirs => !approxEq ours theirs driftTolerance)
    (by simp [ExactScalar.approxEq_self _ _ driftTolerance_nonneg])
  unfold findDrift
  dsimp only at hdegrees hbalances hcosts ⊢
  rw [hdegrees, hbalances, hcosts]

theorem InStep.checkConsistency (h : state.InStep model graph) (hg : graph.WellFormed) :
    state.checkConsistency model graph = .ok () := by
  have htruth := (ofSolution_eq_ok_iff hg).mpr h
  unfold PartitionState.checkConsistency
  rw [h.checkShape, ok_bind, htruth, ok_bind, findDrift_self]
  rfl

end PartitionState

end CircuitPartition
