import CircuitPartition.Proofs.Graph.Reachable
import CircuitPartition.Proofs.Refine.Run

/-!
A maintained state never drifts from the truth: after any run of moves, passes and refinements, its
tables say of the solution what a recomputation says, and nothing on the way leaves its range.
-/

namespace CircuitPartition

inductive Operation (α : Type) where
  | commit (gain : Gain α)
  | move (v target : Nat)
  | pass (limits : RefineLimits) (bounds : Balance α)
  | refine (limits : RefineLimits) (bounds : Balance α)

structure Performed (α : Type) where
  state : PartitionState α
  outcome : Except (Failure α) Unit

variable {α : Type}

def Operation.InRange (model : CostModel α) (graph : Hypergraph α) : Operation α → Prop
  | commit gain =>
    gain.hyperedge < graph.numHyperedges ∧ ∀ block ∈ gain.target, block < model.numParts
  | move v target => v < graph.numVertices ∧ target < model.numParts
  | pass _ _ => True
  | refine _ _ => True

instance {model : CostModel α} {graph : Hypergraph α} (operation : Operation α) :
    Decidable (operation.InRange model graph) :=
  match operation with
  | .commit _ => inferInstanceAs (Decidable (_ ∧ _))
  | .move _ _ => inferInstanceAs (Decidable (_ ∧ _))
  | .pass _ _ => .isTrue trivial
  | .refine _ _ => .isTrue trivial

variable [Scalar α]

def PartitionState.moveAndRefresh (model : CostModel α) (graph : Hypergraph α)
    (state : PartitionState α) (v target : Nat) : Except Fault (PartitionState α) := do
  let moved ← state.move graph v target
  moved.refresh? model graph (← graph.vertexPaths? v)

namespace CostModel

variable (model : CostModel α) (graph : Hypergraph α)

def perform (state : PartitionState α) : Operation α → Performed α
  | .commit gain =>
    match model.commit graph state gain with
    | .ok (_, next) => ⟨next, .ok ()⟩
    | .error fault => ⟨state, .error (.fault fault)⟩
  | .move v target =>
    match state.moveAndRefresh model graph v target with
    | .ok next => ⟨next, .ok ()⟩
    | .error fault => ⟨state, .error (.fault fault)⟩
  | .pass limits bounds =>
    match model.pass graph limits bounds state with
    | .ok pass => ⟨pass.state, .ok ()⟩
    | .error failure => ⟨state, .error failure⟩
  -- A refinement that fails keeps the passes that it has completed.
  | .refine limits bounds =>
    let refinement := model.refine graph limits bounds state
    ⟨refinement.state, refinement.outcome.map fun _ => ()⟩

def performAll (state : PartitionState α) (operations : List (Operation α)) : PartitionState α :=
  operations.foldl (fun state operation => (model.perform graph state operation).state) state

end CostModel

namespace PartitionState.InStep

open CostModel

variable {model : CostModel α} {graph : Hypergraph α} {state : PartitionState α}
  (h : state.InStep model graph) (hg : graph.WellFormed)

include h hg

theorem commit_cases {gain : Gain α} (hgain : (Operation.commit gain).InRange model graph) :
    ∃ gained next,
      model.commit graph state gain = .ok (gained, next) ∧ next.InStep model graph := by
  cases htarget : gain.target with
  | none =>
    refine ⟨0, state, ?_, h⟩
    unfold CostModel.commit Counting.commit
    rw [PartitionState.unbounded_move]
    rw [htarget]
    rfl
  | some target =>
    have ht := hgain.right target htarget
    exact ⟨_, _, h.commit_eq hg ht hgain.left htarget, h.committed hg ht⟩

theorem moveAndRefresh_eq {v target : Nat} (hv : v < graph.numVertices)
    (ht : target < model.numParts) :
    state.moveAndRefresh model graph v target
      =
    .ok { state.moved model graph target v with
      pathCosts := (model.costTable graph (state.moved model graph target v).solution).toArray } := by
  have hmoved := h.toTracks.moved hv ht
  unfold moveAndRefresh
  rw [h.toTracks.move_eq hg hv ht, ok_bind, hg.vertexPaths?_of_lt hv, Fault.liftM_some, ok_bind,
    hmoved.refresh? hg, Fault.liftM_some]
  . intro p hp
    exact Hypergraph.lt_of_mem_walk ((hg.mem_through hv).mp hp)
  . exact h.size_pathCosts
  . intro p hp hmem
    -- A path that is not through the vertex does not notice its move.
    have hcost := h.getElem?_pathCosts hp
    unfold PartitionState.moved
    dsimp only
    rw [hcost, walkCost_congr]
    intro u hu
    have hne : u ≠ v := by
      rintro rfl
      exact hmem ((hg.mem_through hv).mpr hu)
    rw [Solution.blockOf_set!, if_neg hne]
    rw [h.admits.size_eq]
    exact hv

theorem perform {operation : Operation α} (hrange : operation.InRange model graph) :
    (model.perform graph state operation).state.InStep model graph ∧
      ∀ fault, (model.perform graph state operation).outcome ≠ .error (.fault fault) := by
  cases operation with
  | commit gain =>
    obtain ⟨gained, next, hcommit, hnext⟩ := h.commit_cases hg hrange
    unfold CostModel.perform
    dsimp only
    rw [hcommit]
    simp [hnext]
  | move v target =>
    have hnext := (h.toTracks.moved hrange.left hrange.right).withPathCosts
    unfold CostModel.perform
    dsimp only
    rw [h.moveAndRefresh_eq hg hrange.left hrange.right]
    exact ⟨hnext, by simp⟩
  | pass limits bounds =>
    unfold CostModel.perform
    dsimp only
    cases h.pass_cases bounds hg limits with
    | inl hok =>
      rw [hok]
      simp [h.passed bounds hg limits]
    | inr herror =>
      obtain ⟨cause, herror⟩ := herror
      rw [herror]
      simp [h]
  | refine limits bounds =>
    obtain ⟨hstate, houtcome⟩ := h.refine hg limits bounds
    refine ⟨hstate, ?_⟩
    intro fault
    unfold CostModel.perform
    dsimp only
    cases hresult : (model.refine graph limits bounds state).outcome with
    | ok summary => simp [Except.map]
    | error failure =>
      have := houtcome fault
      rw [hresult] at this
      simpa [Except.map] using this

theorem performAll {operations : List (Operation α)}
    (hrange : ∀ operation ∈ operations, operation.InRange model graph) :
    (model.performAll graph state operations).InStep model graph := by
  unfold CostModel.performAll
  induction operations generalizing state with
  | nil => exact h
  | cons operation operations ih =>
    rw [List.forall_mem_cons] at hrange
    exact ih (h.perform hg hrange.left).left hrange.right

end PartitionState.InStep

omit [Scalar α] in
theorem Hypergraph.map_weight_range {graph : Hypergraph α} :
    (List.range graph.numVertices).map graph.weight = graph.vertices.toList.map (·.weight) := by
  apply List.ext_getElem?
  intro v
  rw [List.getElem?_map, List.getElem?_map, Array.getElem?_toList]
  cases Nat.lt_or_ge v graph.numVertices with
  | inl hv =>
    obtain ⟨x, _, hx, hweight⟩ := vertex?_of_lt hv
    unfold vertex? at hx
    simp [hv, hx, hweight]
  | inr hv =>
    unfold numVertices at hv ⊢
    simp [hv]

theorem CostModel.Admits.foldl_addOnto_balanceTable [ExactAddition α] {model : CostModel α}
    {graph : Hypergraph α} {solution : Solution} (h : model.Admits graph solution)
    (hg : graph.WellFormed) :
    (model.balanceTable graph solution).foldl addOnto (List.replicate graph.dimensions.vertex 0)
      =
    graph.totalVertexWeight := by
  have hempty : ∀ n,
      (List.replicate n (List.replicate graph.dimensions.vertex (0 : α))).foldl addOnto
      (List.replicate graph.dimensions.vertex 0) = List.replicate graph.dimensions.vertex 0 := by
    intro n
    induction n with
    | zero => rfl
    | succ n ih =>
      rw [List.replicate_succ, List.foldl_cons,
        replicate_zero_addOnto _ _ List.length_replicate, ih]
  have hweights : (graph.entries solution).map (·.2) = graph.vertices.toList.map (·.weight) := by
    rw [← Hypergraph.map_weight_range]
    simp [Hypergraph.entries]
  unfold balanceTable Hypergraph.totalVertexWeight
  rw [Balance.foldl_addOnto_load Balance.HasShape.empty (h.entries_fit hg), hweights, List.foldl_map,
    ← Array.foldl_toList, ← Array.foldl_toList]
  unfold Balance.empty
  rw [Array.toList_replicate, hempty]

namespace PartitionState

structure Faithful (model : CostModel α) (graph : Hypergraph α) (state : PartitionState α) :
    Prop where
  checkSolution : model.checkSolution graph state.solution = .ok ()
  netDegrees : model.netDegrees graph state.solution = .ok state.netDegrees
  pathCosts : model.pathCosts graph state.solution = .ok state.pathCosts.toList
  blockBalance : ∀ [ExactAddition α],
    model.blockBalance graph state.solution = .ok state.blockBalance
  total : ∀ [ExactAddition α],
    state.blockBalance.foldl addOnto (List.replicate graph.dimensions.vertex 0)
      =
    graph.totalVertexWeight

theorem InStep.faithful {model : CostModel α} {graph : Hypergraph α} {state : PartitionState α}
    (h : state.InStep model graph) (hg : graph.WellFormed) : state.Faithful model graph := by
  constructor
  . exact CostModel.checkSolution_eq_ok.mpr h.admits
  . rw [h.netDegrees_eq]
    exact h.admits.netDegrees hg
  . rw [h.pathCosts_eq]
    exact h.admits.pathCosts hg
  . intro _
    rw [h.blockBalance_eq]
    exact h.admits.blockBalance hg
  . intro _
    rw [h.blockBalance_eq]
    exact h.admits.foldl_addOnto_balanceTable hg

end PartitionState

/--
A state never drifts: after any run from a computed state it is faithful again, and whatever comes
next leaves no range and takes no pin from a block without one. Addition may round: only balances
need it to be exact.
-/
theorem performAll_faithful {model : CostModel α} {graph : Hypergraph α} {solution : Solution}
    (hgraph : graph.Reachable) (haccept : model.accept graph = .ok ())
    (hsize : solution.size = graph.numVertices) (hlt : ∀ block ∈ solution, block < model.numParts)
    (operations : List (Operation α))
    (hrange : ∀ operation ∈ operations, operation.InRange model graph) :
    ∃ start, PartitionState.ofSolution model graph solution = .ok start ∧
      (model.performAll graph start operations).Faithful model graph ∧
      ∀ operation : Operation α, operation.InRange model graph → ∀ fault,
        (model.perform graph (model.performAll graph start operations) operation).outcome
          ≠
        .error (.fault fault) := by
  have hg := hgraph.wellFormed
  have hcompatible : model.checkCompatible graph = .ok () := by
    unfold CostModel.accept at haccept
    rw [check_bind_eq_ok] at haccept
    exact haccept.right
  have hs : model.Admits graph solution := ⟨hcompatible, hsize, hlt⟩
  have hrun := (PartitionState.inStep_recomputed hs).performAll hg hrange
  refine ⟨_, PartitionState.ofSolution_of_admits hg hs, hrun.faithful hg, ?_⟩
  intro operation hoperation
  exact (hrun.perform hg hoperation).right

theorem performAll_faithful_chain :
    ∃ start, PartitionState.ofSolution .standard Hypergraph.chain #[0, 1, 0] = .ok start ∧
      (CostModel.standard.performAll .chain start
        [.commit ⟨0, some 1, 0, 0⟩, .move 2 1, .refine .standard #[[4], [4]]]).Faithful
          .standard .chain := by
  have haccept : CostModel.standard.accept Hypergraph.chain = .ok () := rfl
  have hsize : (#[0, 1, 0] : Solution).size = Hypergraph.chain.numVertices := rfl
  obtain ⟨start, hstart, hfaithful, _⟩ := performAll_faithful Hypergraph.reachable_chain haccept
    hsize (by decide)
    [.commit ⟨0, some 1, 0, 0⟩, .move 2 1, .refine .standard #[[4], [4]]] (by decide)
  exact ⟨start, hstart, hfaithful⟩

end CircuitPartition
