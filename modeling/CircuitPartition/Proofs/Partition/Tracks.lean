import CircuitPartition.Proofs.Graph.Reachable
import CircuitPartition.Proofs.Partition.Move

/-!
The invariant of a maintained partition: degrees, balance and path costs say of the present solution
what a recomputation would say.
-/

namespace CircuitPartition

variable {α : Type}

theorem Solution.set!_blockOf {solution : Solution} {v : Nat} (hv : v < solution.size) :
    solution.set! v (solution.blockOf v) = solution := by
  apply Array.ext_getElem?
  intro u
  rw [getElem?_set! hv]
  split
  . next heq =>
    subst heq
    simp [Solution.blockOf, hv]
  . rfl

variable [Scalar α]

def Balance.shift (balance : Balance α) (source target : Nat) (weight : List α) : Balance α :=
  if source = target then
    balance
  else
    (balance.modify source (takeOff · weight)).modify target (addOnto · weight)

theorem Balance.HasShape.shift {rows columns : Nat} {balance : Balance α}
    (h : balance.HasShape rows columns) (source target : Nat) (weight : List α) :
    (balance.shift source target weight).HasShape rows columns := by
  unfold Balance.shift
  split
  . exact h
  . apply Balance.HasShape.modify
    . apply h.modify
      simp
    . simp

namespace CostModel.Admits

variable {model : CostModel α} {graph : Hypergraph α} {solution : Solution}
  (h : model.Admits graph solution)

include h

theorem shift_balanceTable [ExactAddition α] {v : Nat} (hv : v < graph.numVertices) (target : Nat) :
    (model.balanceTable graph solution).shift (solution.blockOf v) target (graph.weight v)
      =
    model.balanceTable graph (solution.set! v target) := by
  have hlt : v < solution.size := by
    rw [h.size_eq]
    exact hv
  unfold Balance.shift
  split
  . next heq =>
    rw [← heq, Solution.set!_blockOf hlt]
  -- With the entry of the vertex in front, it leaves its old block and enters the new one last.
  . have hne : ∀ u, u ≠ v → (Solution.blockOf (solution.set! v target) u, graph.weight u)
        = (solution.blockOf u, graph.weight u) := by
      intro u hu
      rw [Solution.blockOf_set! hlt, if_neg hu]
    obtain ⟨rest, hbefore, hafter⟩ :=
      exists_perm_cons_map List.nodup_range (List.mem_range.mpr hv) hne
    rw [Solution.blockOf_set! hlt, if_pos rfl] at hafter
    unfold balanceTable Hypergraph.entries
    rw [Balance.load_perm hbefore, Balance.load_perm hafter, Balance.modify_takeOff_load,
      Balance.modify_addOnto_load]

end CostModel.Admits

namespace PartitionState

structure Tracks (model : CostModel α) (graph : Hypergraph α) (state : PartitionState α) :
    Prop where
  admits : model.Admits graph state.solution
  netDegrees_eq : state.netDegrees = model.degreeTable graph state.solution
  hasShape : state.blockBalance.HasShape model.numParts graph.dimensions.vertex
  -- Rounded sums depend on the order of the moves, exact ones do not.
  blockBalance_eq : ∀ [ExactAddition α],
    state.blockBalance = model.balanceTable graph state.solution

structure InStep (model : CostModel α) (graph : Hypergraph α) (state : PartitionState α) : Prop
    extends state.Tracks model graph where
  pathCosts_eq : state.pathCosts = (model.costTable graph state.solution).toArray

def recomputed (model : CostModel α) (graph : Hypergraph α) (solution : Solution) :
    PartitionState α where
  solution
  blockBalance := model.balanceTable graph solution
  netDegrees := model.degreeTable graph solution
  pathCosts := (model.costTable graph solution).toArray

def moved (model : CostModel α) (graph : Hypergraph α) (target : Nat) (state : PartitionState α)
    (v : Nat) : PartitionState α where
  solution := state.solution.set! v target
  blockBalance := state.blockBalance.shift (state.solution.blockOf v) target (graph.weight v)
  netDegrees := model.degreeTable graph (state.solution.set! v target)
  pathCosts := state.pathCosts

variable {model : CostModel α} {graph : Hypergraph α} {solution : Solution}

theorem ofSolution_of_admits (hg : graph.WellFormed) (hs : model.Admits graph solution) :
    ofSolution model graph solution = .ok (recomputed model graph solution) := by
  unfold ofSolution
  rw [hs.blockBalance hg, hs.netDegrees hg, hs.pathCosts hg]
  rfl

theorem inStep_recomputed (hs : model.Admits graph solution) :
    (recomputed model graph solution).InStep model graph := by
  constructor
  . constructor
    . exact hs
    . rfl
    . exact Balance.HasShape.empty.load _
    . intro _
      rfl
  . rfl

variable {state : PartitionState α} {v target : Nat}

theorem InStep.getElem?_pathCosts (h : state.InStep model graph) {p : Nat}
    (hp : p < graph.numPaths) :
    state.pathCosts[p]? = some (model.walkCost graph state.solution.blockOf p) := by
  rw [h.pathCosts_eq]
  simp [CostModel.costTable, hp]

theorem InStep.size_pathCosts (h : state.InStep model graph) :
    state.pathCosts.size = graph.numPaths := by
  rw [h.pathCosts_eq]
  simp [CostModel.costTable]

theorem InStep.eq_recomputed_of_blockBalance (h : state.InStep model graph)
    (hbalance : state.blockBalance = model.balanceTable graph state.solution) :
    state = recomputed model graph state.solution := by
  obtain ⟨solution, balance, degrees, costs⟩ := state
  have hdegrees := h.netDegrees_eq
  have hcosts := h.pathCosts_eq
  unfold recomputed
  simp only at hbalance hdegrees hcosts ⊢
  rw [hbalance, hdegrees, hcosts]

theorem InStep.eq_recomputed [ExactAddition α] (h : state.InStep model graph) :
    state = recomputed model graph state.solution :=
  h.eq_recomputed_of_blockBalance h.blockBalance_eq

theorem ofSolution_eq_ok_iff [ExactAddition α] (hg : graph.WellFormed) :
    ofSolution model graph state.solution = .ok state ↔ state.InStep model graph := by
  constructor
  . intro h
    have hs : model.Admits graph state.solution := by
      unfold ofSolution CostModel.blockBalance at h
      simp only [bind_eq_ok] at h
      obtain ⟨_, ⟨_, hcheck, _⟩, _⟩ := h
      exact CostModel.checkSolution_eq_ok.mp hcheck
    rw [ofSolution_of_admits hg hs, Except.ok.injEq] at h
    rw [← h]
    exact inStep_recomputed hs
  . intro h
    rw [ofSolution_of_admits hg h.admits, ← h.eq_recomputed]

def chain : PartitionState ℚ where
  solution := #[0, 1, 0]
  blockBalance := #[[3], [1]]
  netDegrees := #[#[1, 1], #[1, 1]]
  pathCosts := #[3]

theorem ofSolution_chain : ofSolution .standard .chain chain.solution = .ok chain := by
  decide +kernel

theorem Tracks.move_eq (h : state.Tracks model graph) (hg : graph.WellFormed)
    (hv : v < graph.numVertices) (ht : target < model.numParts) :
    state.move graph v target = .ok (state.moved model graph target v) := by
  have hlt : v < state.solution.size := by
    rw [h.admits.size_eq]
    exact hv
  unfold PartitionState.move Counting.move moved Balance.shift
  rw [h.admits.getElem?_of_lt hv, Fault.liftM_some, ok_bind]
  split
  . next heq =>
    rw [← heq, Solution.set!_blockOf hlt, ← h.netDegrees_eq]
    rfl
  . obtain ⟨x, _, hx, hweight⟩ := Hypergraph.vertex?_of_lt hv
    have hlength := hg.length_weight hv
    have hleft := h.hasShape.modify (state.solution.blockOf v) (f := (takeOff · (graph.weight v)))
      (by simp)
    rw [hx, hg.vertexHyperedges?_of_lt hv, h.netDegrees_eq]
    simp only [Fault.liftM_some, ok_bind]
    rw [foldlM_movePin_incident hg h.admits (.inl rfl) ht hv, ok_bind, ← hweight,
      h.hasShape.leave? (h.admits.blockOf_lt hv) hlength, Fault.liftM_some, ok_bind,
      hleft.enter? ht hlength, Fault.liftM_some, ok_bind]
    rfl

theorem Tracks.moved (h : state.Tracks model graph) (hv : v < graph.numVertices)
    (ht : target < model.numParts) : (state.moved model graph target v).Tracks model graph := by
  constructor
  . exact h.admits.set! v ht
  . rfl
  . exact h.hasShape.shift _ _ _
  . intro _
    unfold PartitionState.moved
    dsimp only
    rw [h.blockBalance_eq, h.admits.shift_balanceTable hv]

theorem refreshPath_of_lt (hg : graph.WellFormed) (hs : model.Admits graph state.solution)
    {costs : Array α} (hsize : costs.size = graph.numPaths) {p : Nat} (hp : p < graph.numPaths) :
    refresh?.refreshPath model graph state costs p
      =
    some (costs.set! p (model.walkCost graph state.solution.blockOf p)) := by
  unfold refresh?.refreshPath
  rw [hs.pathCostWith? hg hp, some_bind, if_pos (by omega)]
  rfl

theorem foldlM_refreshPath (hg : graph.WellFormed) (hs : model.Admits graph state.solution)
    {paths : List Nat} (hpaths : ∀ p ∈ paths, p < graph.numPaths) {costs : Array α}
    (hsize : costs.size = graph.numPaths)
    (hcosts : ∀ p < graph.numPaths, p ∉ paths →
      costs[p]? = some (model.walkCost graph state.solution.blockOf p)) :
    paths.foldlM (refresh?.refreshPath model graph state) costs
      =
    some (model.costTable graph state.solution).toArray := by
  induction paths generalizing costs with
  | nil =>
    rw [List.foldlM_nil, Option.pure_def, Option.some.injEq]
    apply Array.ext_getElem?
    intro p
    cases Nat.lt_or_ge p graph.numPaths with
    | inl hp =>
      rw [hcosts p hp List.not_mem_nil]
      simp [CostModel.costTable, hp]
    | inr hp => simp [CostModel.costTable, hp, hsize]
  | cons p paths ih =>
    rw [List.forall_mem_cons] at hpaths
    have hlt : p < costs.size := by
      rw [hsize]
      exact hpaths.left
    rw [List.foldlM_cons, refreshPath_of_lt hg hs hsize hpaths.left, some_bind]
    apply ih hpaths.right
    . simpa using hsize
    -- A path that does not come again keeps the cost that it has been given: the right one.
    . intro q hq hmem
      rw [getElem?_set! hlt]
      split
      . next heq => rw [heq]
      . next hne =>
        apply hcosts q hq
        rw [List.mem_cons, not_or]
        exact ⟨fun heq => hne heq.symm, hmem⟩

theorem Tracks.refresh? (h : state.Tracks model graph) (hg : graph.WellFormed) {paths : List Nat}
    (hpaths : ∀ p ∈ paths, p < graph.numPaths) (hsize : state.pathCosts.size = graph.numPaths)
    (hcosts : ∀ p < graph.numPaths, p ∉ paths →
      state.pathCosts[p]? = some (model.walkCost graph state.solution.blockOf p)) :
    state.refresh? model graph paths
      =
    some { state with pathCosts := (model.costTable graph state.solution).toArray } := by
  unfold PartitionState.refresh?
  rw [foldlM_refreshPath hg h.admits hpaths hsize hcosts]
  rfl

theorem Tracks.withPathCosts (h : state.Tracks model graph) :
    InStep model graph
      { state with pathCosts := (model.costTable graph state.solution).toArray } := by
  constructor
  . exact ⟨h.admits, h.netDegrees_eq, h.hasShape, h.blockBalance_eq⟩
  . rfl

end PartitionState

end CircuitPartition
