import CircuitPartition.Proofs.Partition.Tracks

/-!
The shape of a state, whatever numbers it holds. It is what the checks ask for in any case, and no
vertex that moves changes it.
-/

namespace CircuitPartition

variable {α : Type}

namespace Counting

variable {counting : Counting} {degrees next : Degrees} {block : Nat}

theorem size_of_enter (h : counting.enter degrees block = .ok next) : next.size = degrees.size := by
  unfold enter at h
  simp only [bind_eq_ok, pure_eq_ok, Except.ok.injEq] at h
  obtain ⟨_, _, _, _, rfl⟩ := h
  rw [Array.set!_eq_setIfInBounds, Array.size_setIfInBounds]

theorem size_of_leave (h : counting.leave degrees block = .ok next) : next.size = degrees.size := by
  unfold leave at h
  simp only [bind_eq_ok, pure_eq_ok, Except.ok.injEq] at h
  obtain ⟨_, _, _, _, rfl⟩ := h
  rw [Array.set!_eq_setIfInBounds, Array.size_setIfInBounds]

theorem size_of_movePin {source target e : Nat} {table next : Array Degrees}
    (h : counting.movePin source target table e = .ok next) {columns : Nat}
    (hcolumns : ∀ degrees ∈ table, degrees.size = columns) :
    next.size = table.size ∧ ∀ degrees ∈ next, degrees.size = columns := by
  unfold movePin at h
  simp only [bind_eq_ok, Fault.liftM_eq_ok, pure_eq_ok, Except.ok.injEq] at h
  obtain ⟨degrees, hget, left, hleave, entered, henter, rfl⟩ := h
  constructor
  . simp
  . apply forall_mem_set! hcolumns
    rw [size_of_enter henter, size_of_leave hleave]
    exact hcolumns degrees (Array.mem_of_getElem? hget)

end Counting

namespace Balance

variable [Scalar α] {balance next : Balance α} {block : Nat} {weight : List α}

theorem eq_modify_of_enter? (h : balance.enter? block weight = some next) :
    block < balance.size ∧ next = balance.modify block (addOnto · weight) := by
  unfold enter? at h
  cases hrow : balance[block]? with
  | none => simp [hrow] at h
  | some row =>
    rw [hrow, some_bind] at h
    split at h
    . simp at h
    . rw [Option.pure_def, Option.some.injEq] at h
      rw [← h, ← set!_eq_modify hrow]
      exact ⟨(Array.getElem?_eq_some_iff.mp hrow).1, rfl⟩

theorem eq_modify_of_leave? (h : balance.leave? block weight = some next) :
    next = balance.modify block (takeOff · weight) := by
  unfold leave? at h
  cases hrow : balance[block]? with
  | none => simp [hrow] at h
  | some row =>
    rw [hrow, some_bind] at h
    split at h
    . simp at h
    . rw [Option.pure_def, Option.some.injEq] at h
      rw [← h, ← set!_eq_modify hrow]

end Balance

namespace PartitionState

structure Shaped (model : CostModel α) (graph : Hypergraph α) (state : PartitionState α) :
    Prop where
  admits : model.Admits graph state.solution
  size_netDegrees : state.netDegrees.size = graph.numHyperedges
  size_degrees : ∀ degrees ∈ state.netDegrees, degrees.size = model.numParts
  hasShape : state.blockBalance.HasShape model.numParts graph.dimensions.vertex
  size_pathCosts : state.pathCosts.size = graph.numPaths

structure Counted (model : CostModel α) (graph : Hypergraph α) (state : PartitionState α) : Prop
    extends state.Shaped model graph where
  netDegrees_eq : state.netDegrees = model.degreeTable graph state.solution

variable [Scalar α] {model : CostModel α} {graph : Hypergraph α} {state next : PartitionState α}

omit [Scalar α] in
theorem checkShape_eq_ok : state.checkShape model graph = .ok () ↔ state.Shaped model graph := by
  unfold checkShape
  rw [check_bind_eq_ok, CostModel.checkSolution_eq_ok]
  simp only [throw_eq_error, error_bind, pure_eq_ok]
  constructor
  . rintro ⟨hadmits, h⟩
    split at h
    . simp at h
    . next hdegrees =>
      split at h
      . simp at h
      . next hbalance =>
        split at h
        . simp at h
        . next hcosts =>
          simp only [not_or, not_not, Array.any_eq_true', decide_eq_true_eq, not_exists, not_and]
            at hdegrees hcosts
          exact ⟨hadmits, hdegrees.left, hdegrees.right, Balance.hasShape_iff.mpr hbalance, hcosts⟩
  . intro h
    have hdegrees : ¬(state.netDegrees.size ≠ graph.numHyperedges ∨
        state.netDegrees.any (·.size ≠ model.numParts) = true) := by
      simp only [not_or, not_not, Array.any_eq_true', decide_eq_true_eq, not_exists, not_and]
      exact ⟨h.size_netDegrees, h.size_degrees⟩
    refine ⟨h.admits, ?_⟩
    rw [if_neg hdegrees, if_neg (Balance.hasShape_iff.mp h.hasShape),
      if_neg (not_not.mpr h.size_pathCosts)]

variable {v target : Nat}

variable {counting : Counting}

theorem move_cases (h : counting.move graph state v target = .ok next) :
    next = state
      ∨
    ∃ source netDegrees incident weight, state.solution[v]? = some source ∧
      graph.vertexHyperedges? v = some incident ∧
      incident.foldlM (counting.movePin source target) state.netDegrees = .ok netDegrees ∧
      target < state.blockBalance.size ∧
      next = {
        solution := state.solution.set! v target
        blockBalance := state.blockBalance.shift source target weight
        netDegrees
        pathCosts := state.pathCosts } := by
  unfold Counting.move at h
  simp only [bind_eq_ok, Fault.liftM_eq_ok] at h
  obtain ⟨source, hsource, h⟩ := h
  split at h
  . simp only [pure_eq_ok, Except.ok.injEq] at h
    exact .inl h.symm
  . next hne =>
    simp only [bind_eq_ok, Fault.liftM_eq_ok, pure_eq_ok, Except.ok.injEq] at h
    obtain ⟨x, _, incident, hincident, netDegrees, hdegrees, left, hleave, _, henter, rfl⟩ := h
    have hleft := Balance.eq_modify_of_leave? hleave
    subst hleft
    obtain ⟨htarget, rfl⟩ := Balance.eq_modify_of_enter? henter
    rw [Array.size_modify] at htarget
    refine .inr ⟨source, netDegrees, incident, x.weight, hsource, hincident, hdegrees, htarget, ?_⟩
    unfold Balance.shift
    rw [if_neg hne]

theorem Shaped.move (h : state.Shaped model graph)
    (hmove : counting.move graph state v target = .ok next) : next.Shaped model graph := by
  cases move_cases hmove with
  | inl heq =>
    rw [heq]
    exact h
  | inr hmoved =>
    obtain ⟨source, netDegrees, incident, weight, _, _, hdegrees, htarget, rfl⟩ := hmoved
    rw [h.hasShape.size_eq] at htarget
    have hsizes : netDegrees.size = graph.numHyperedges ∧
        ∀ degrees ∈ netDegrees, degrees.size = model.numParts := by
      refine foldlM_induction (P := fun table => table.size = graph.numHyperedges ∧
        ∀ degrees ∈ table, degrees.size = model.numParts) ?_
        ⟨h.size_netDegrees, h.size_degrees⟩ hdegrees
      intro table e _ next htable hpin
      obtain ⟨hsize, hcolumns⟩ := Counting.size_of_movePin hpin htable.right
      exact ⟨hsize.trans htable.left, hcolumns⟩
    constructor
    . exact h.admits.set! v htarget
    . exact hsizes.left
    . exact hsizes.right
    . exact h.hasShape.shift source target weight
    . exact h.size_pathCosts

theorem pathCosts_of_move (h : counting.move graph state v target = .ok next) :
    next.pathCosts = state.pathCosts := by
  cases move_cases h with
  | inl heq => rw [heq]
  | inr hmoved =>
    obtain ⟨_, _, _, _, _, _, _, _, rfl⟩ := hmoved
    rfl

theorem blockOf_of_move (h : counting.move graph state v target = .ok next) {u : Nat}
    (hne : u ≠ v) : next.solution.blockOf u = state.solution.blockOf u := by
  cases move_cases h with
  | inl heq => rw [heq]
  | inr hmoved =>
    obtain ⟨_, _, _, _, hsource, _, _, _, rfl⟩ := hmoved
    obtain ⟨hv, _⟩ := Array.getElem?_eq_some_iff.mp hsource
    rw [Solution.blockOf_set! hv, if_neg hne]

theorem Counted.move (h : state.Counted model graph) (hg : graph.WellFormed)
    (hcovers : counting.Covers graph.numVertices)
    (hmove : counting.move graph state v target = .ok next) : next.Counted model graph := by
  refine ⟨h.toShaped.move hmove, ?_⟩
  cases move_cases hmove with
  | inl heq =>
    rw [heq]
    exact h.netDegrees_eq
  | inr hmoved =>
    obtain ⟨source, netDegrees, incident, _, hsource, hincident, hfold, htarget, rfl⟩ := hmoved
    rw [h.hasShape.size_eq] at htarget
    obtain ⟨hv, hget⟩ := Array.getElem?_eq_some_iff.mp hsource
    rw [h.admits.size_eq] at hv
    have hblock : state.solution.blockOf v = source := by simp [Solution.blockOf, hsource]
    rw [hg.vertexHyperedges?_of_lt hv, Option.some.injEq] at hincident
    rw [h.netDegrees_eq, ← hblock, ← hincident,
      foldlM_movePin_incident hg h.admits hcovers htarget hv, Except.ok.injEq] at hfold
    exact hfold.symm

section Run

variable {vertices : List Nat}
  (hmoved : vertices.foldlM (fun state v => counting.move graph state v target) state = .ok next)

include hmoved

theorem Shaped.foldlM_move (h : state.Shaped model graph) : next.Shaped model graph := by
  refine foldlM_induction ?_ h hmoved
  intro state v _ next hstate hmove
  exact hstate.move hmove

theorem Counted.foldlM_move (h : state.Counted model graph) (hg : graph.WellFormed)
    (hcovers : counting.Covers graph.numVertices) : next.Counted model graph := by
  refine foldlM_induction ?_ h hmoved
  intro state v _ next hstate hmove
  exact hstate.move hg hcovers hmove

theorem pathCosts_of_foldlM_move : next.pathCosts = state.pathCosts := by
  refine foldlM_induction (P := fun between => between.pathCosts = state.pathCosts) ?_ rfl hmoved
  intro between v _ next hbetween hmove
  exact (pathCosts_of_move hmove).trans hbetween

theorem blockOf_of_foldlM_move {u : Nat} (hu : u ∉ vertices) :
    next.solution.blockOf u = state.solution.blockOf u := by
  refine foldlM_induction
    (P := fun between => between.solution.blockOf u = state.solution.blockOf u) ?_ rfl hmoved
  intro between v hv next hbetween hmove
  have hne : u ≠ v := by
    rintro rfl
    exact hu hv
  rw [blockOf_of_move hmove hne, hbetween]

end Run

theorem refreshPath_eq_some {costs final : Array α} {p : Nat}
    (h : refresh?.refreshPath model graph state costs p = some final) :
    ∃ cost, model.pathCostWith? graph (state.solution[·]?) p = some cost ∧ p < costs.size ∧
      final = costs.set! p cost := by
  unfold refresh?.refreshPath at h
  rw [Option.bind_eq_bind, Option.bind_eq_some_iff] at h
  obtain ⟨cost, hcost, h⟩ := h
  split at h
  . next hlt =>
    rw [Option.pure_def, Option.some.injEq] at h
    exact ⟨cost, hcost, hlt, h.symm⟩
  . simp at h

theorem getElem?_of_foldlM_refreshPath {paths : List Nat} {costs final : Array α}
    (h : paths.foldlM (refresh?.refreshPath model graph state) costs = some final) :
    final.size = costs.size ∧
      ∀ p, final[p]?
        =
      if p ∈ paths then model.pathCostWith? graph (state.solution[·]?) p else costs[p]? := by
  induction paths generalizing costs with
  | nil =>
    rw [List.foldlM_nil, Option.pure_def, Option.some.injEq] at h
    simp [h]
  | cons p paths ih =>
    rw [List.foldlM_cons, Option.bind_eq_bind, Option.bind_eq_some_iff] at h
    obtain ⟨after, hafter, h⟩ := h
    obtain ⟨cost, hcost, hlt, rfl⟩ := refreshPath_eq_some hafter
    obtain ⟨hsize, hget⟩ := ih h
    constructor
    . rw [hsize, Array.set!_eq_setIfInBounds, Array.size_setIfInBounds]
    . intro q
      rw [hget q, getElem?_set! hlt]
      by_cases hq : q ∈ paths
      . rw [if_pos hq, if_pos (List.mem_cons_of_mem p hq)]
      . by_cases heq : p = q
        . subst heq
          rw [if_neg hq, if_pos rfl, if_pos List.mem_cons_self, hcost]
        . have hne : q ≠ p := fun h => heq h.symm
          rw [if_neg hq, if_neg heq, if_neg (by simp [hne, hq])]

end PartitionState

end CircuitPartition
