import CircuitPartition.Proofs.Refine.Run

/-!
A refinement that fails has moved nothing, with one exception: the check before a later pass may
find fault with a balance that was close enough to the truth before, or with a path cost that is not
even close to itself.
-/

namespace CircuitPartition

variable {α : Type} [Scalar α] {model : CostModel α} {graph : Hypergraph α}

namespace CostModel

omit [Scalar α] in
theorem lt_of_movers? {solution : Solution} {e target : Nat} {moving : List Nat}
    (h : movers? graph solution e target = some moving) : e < graph.numHyperedges := by
  unfold movers? at h
  rw [Option.bind_eq_bind, Option.bind_eq_some_iff] at h
  obtain ⟨hyperedge, hget, _⟩ := h
  exact (Array.getElem?_eq_some_iff.mp hget).1

theorem commit_cases (hg : graph.WellFormed) {state next : PartitionState α}
    (h : model.Admits graph state.solution) {counting : Counting} {move : Gain α} {gain : α}
    (hcommit : counting.commit model graph state move = .ok (gain, next)) :
    next = state
      ∨
    ∃ target moved pathCosts,
      (graph.movers state.solution move.hyperedge target).foldlM
        (fun state v => counting.move graph state v target) state = .ok moved ∧
      (graph.touchedPaths (graph.movers state.solution move.hyperedge target)).foldlM
        (PartitionState.refresh?.refreshPath model graph moved) moved.pathCosts = some pathCosts ∧
      next = { moved with pathCosts } := by
  unfold Counting.commit at hcommit
  split at hcommit
  . simp only [pure_eq_ok, Except.ok.injEq, Prod.mk.injEq] at hcommit
    exact .inl hcommit.right.symm
  . next target _ =>
    simp only [bind_eq_ok, Fault.liftM_eq_ok, pure_eq_ok, Except.ok.injEq, Prod.mk.injEq] at hcommit
    obtain ⟨moving, hmoving, moved, hmoved, paths, hpaths, refreshed, hrefresh, _, rfl⟩ := hcommit
    have he := lt_of_movers? hmoving
    rw [h.movers?_eq hg he, Option.some.injEq] at hmoving
    subst hmoving
    rw [hg.touchedPaths?_eq hg.lt_of_mem_movers, Option.some.injEq] at hpaths
    subst hpaths
    unfold PartitionState.refresh? at hrefresh
    rw [Option.bind_eq_bind, Option.bind_eq_some_iff] at hrefresh
    obtain ⟨pathCosts, hcosts, hrefresh⟩ := hrefresh
    rw [Option.pure_def, Option.some.injEq] at hrefresh
    exact .inr ⟨target, moved, pathCosts, hmoved, hcosts, hrefresh.symm⟩

end CostModel

namespace Counting

variable {counting : Counting} {bounds : Balance α} {pass : Pass α}

theorem commit_of_improve {e : Nat} {improved : Pass α}
    (h : counting.improve model graph bounds pass e = .ok improved) :
    ∃ best gain, counting.commit model graph pass.state best = .ok (gain, improved.state) := by
  unfold improve at h
  simp only [bind_eq_ok, Fault.liftM_eq_ok] at h
  obtain ⟨best, _, ⟨gain, state⟩, hcommit, himproved⟩ := h
  cases himproved
  exact ⟨best, gain, hcommit⟩

theorem visit_induction {P : PartitionState α → Prop}
    (hcommit : ∀ state move gain next, P state →
      counting.commit model graph state move = .ok (gain, next) → P next)
    {maxMoves : Nat} {es : List Nat} {final : Pass α} (h : P pass.state)
    (hvisit : counting.visit model graph maxMoves bounds es pass = .ok final) : P final.state := by
  induction es generalizing pass with
  | nil =>
    cases hvisit
    exact h
  | cons e es ih =>
    unfold visit at hvisit
    simp only [bind_eq_ok, Fault.liftM_eq_ok] at hvisit
    obtain ⟨degrees, _, hvisit⟩ := hvisit
    split at hvisit
    . exact ih h hvisit
    . split at hvisit
      . cases hvisit
        exact h
      . simp only [bind_eq_ok] at hvisit
        obtain ⟨improved, himprove, hvisit⟩ := hvisit
        obtain ⟨best, gain, hbest⟩ := commit_of_improve himprove
        exact ih (hcommit _ best gain _ h hbest) hvisit

end Counting

namespace PartitionState

variable {counting : Counting} {state next : PartitionState α} {move : Gain α} {gain : α}

theorem Shaped.commit (h : state.Shaped model graph) (hg : graph.WellFormed)
    (hcommit : counting.commit model graph state move = .ok (gain, next)) :
    next.Shaped model graph := by
  cases CostModel.commit_cases hg h.admits hcommit with
  | inl heq =>
    rw [heq]
    exact h
  | inr hmoved =>
    obtain ⟨target, moved, pathCosts, hmoved, hcosts, rfl⟩ := hmoved
    have hshaped := h.foldlM_move hmoved
    have hsize := (getElem?_of_foldlM_refreshPath hcosts).left
    exact ⟨hshaped.admits, hshaped.size_netDegrees, hshaped.size_degrees, hshaped.hasShape,
      hsize.trans hshaped.size_pathCosts⟩

theorem Counted.commit (h : state.Counted model graph) (hg : graph.WellFormed)
    (hcovers : counting.Covers graph.numVertices)
    (hcommit : counting.commit model graph state move = .ok (gain, next)) :
    next.Counted model graph := by
  refine ⟨h.toShaped.commit hg hcommit, ?_⟩
  cases CostModel.commit_cases hg h.admits hcommit with
  | inl heq =>
    rw [heq]
    exact h.netDegrees_eq
  | inr hmoved =>
    obtain ⟨target, moved, pathCosts, hmoved, hcosts, rfl⟩ := hmoved
    exact (h.foldlM_move hmoved hg hcovers).netDegrees_eq

theorem Agrees.commit (h : state.Agrees model graph) (hg : graph.WellFormed)
    (hcommit : model.commit graph state move = .ok (gain, next)) : next.Agrees model graph := by
  have hcounted := h.toCounted.commit hg (.inl rfl) hcommit
  cases CostModel.commit_cases hg h.admits hcommit with
  | inl heq =>
    rw [heq]
    exact h
  | inr hmoved =>
    obtain ⟨target, moved, pathCosts, hmoved, hcosts, rfl⟩ := hmoved
    refine ⟨hcounted, ?_⟩
    intro p cost hcost
    obtain ⟨hp, _⟩ := Array.getElem?_eq_some_iff.mp hcost
    rw [hcounted.size_pathCosts] at hp
    rw [(getElem?_of_foldlM_refreshPath hcosts).right p] at hcost
    split at hcost
    -- A path with a mover on it has just been priced.
    . rw [hcounted.admits.pathCostWith? hg hp, Option.some.injEq] at hcost
      exact .inl hcost.symm
    . next hmem =>
      have hwalk : model.walkCost graph moved.solution.blockOf p
          = model.walkCost graph state.solution.blockOf p := by
        apply CostModel.walkCost_congr
        intro v hv
        apply blockOf_of_foldlM_move hmoved
        intro hmover
        apply hmem
        rw [hg.mem_touchedPaths hg.lt_of_mem_movers]
        exact ⟨v, hmover, hv⟩
      rw [pathCosts_of_foldlM_move hmoved] at hcost
      dsimp only
      rw [hwalk]
      exact h.pathCosts_near p cost hcost

end PartitionState

def RefineLimits.Interrupts (limits : RefineLimits) (failure : Failure α) : Prop :=
  (∃ fault, failure = .fault fault)
    ∨
  limits.checkConsistency = true ∧ ∃ cause, failure = .precondition cause ∧ cause.Drifted

structure Ready (model : CostModel α) (graph : Hypergraph α) (limits : RefineLimits)
    (bounds : Balance α) (state : PartitionState α) : Prop where
  bounds : bounds.HasShape model.numParts graph.dimensions.vertex
  shaped : state.Shaped model graph
  agrees : limits.checkConsistency = true → state.Agrees model graph

theorem Counting.visit_of_pass (hg : graph.WellFormed) {counting : Counting} {limits : RefineLimits}
    {bounds : Balance α} {state : PartitionState α} {pass : Pass α}
    (h : counting.pass model graph limits bounds state = .ok pass) :
    Ready model graph limits bounds state ∧
      counting.visit model graph limits.maxMoves bounds (List.range graph.numHyperedges)
        ⟨state, 0, 0, [], none⟩ = .ok pass := by
  unfold Counting.pass at h
  rw [check_bind_eq_ok, Failure.liftM_precondition_eq_ok, CostModel.checkBounds_eq_ok] at h
  obtain ⟨hbounds, h⟩ := h
  split at h
  . rw [check_bind_eq_ok, Failure.liftM_fault_eq_ok] at h
    have hagrees := PartitionState.agrees_of_checkConsistency hg h.left
    exact ⟨⟨hbounds, hagrees.toShaped, fun _ => hagrees⟩, h.right⟩
  . next hcheck =>
    rw [check_bind_eq_ok, Failure.liftM_fault_eq_ok, PartitionState.checkShape_eq_ok] at h
    exact ⟨⟨hbounds, h.left, fun hlimits => absurd hlimits hcheck⟩, h.right⟩

namespace Ready

variable {limits : RefineLimits} {bounds : Balance α} {state next : PartitionState α}

theorem commit (h : Ready model graph limits bounds state) (hg : graph.WellFormed) {move : Gain α}
    {gain : α} (hcommit : model.commit graph state move = .ok (gain, next)) :
    Ready model graph limits bounds next :=
  ⟨h.bounds, h.shaped.commit hg hcommit, fun hcheck => (h.agrees hcheck).commit hg hcommit⟩

theorem visit (hg : graph.WellFormed) {maxMoves : Nat} {es : List Nat} {pass final : Pass α}
    (h : Ready model graph limits bounds pass.state)
    (hvisit : model.visit graph maxMoves bounds es pass = .ok final) :
    Ready model graph limits bounds final.state := by
  refine Counting.visit_induction ?_ h hvisit
  intro state move gain next hstate hcommit
  exact hstate.commit hg hcommit

theorem of_pass (hg : graph.WellFormed) {pass : Pass α}
    (h : model.pass graph limits bounds state = .ok pass) :
    Ready model graph limits bounds pass.state := by
  obtain ⟨hready, hvisit⟩ := Counting.visit_of_pass hg h
  exact visit hg hready hvisit

theorem failure_pass (h : Ready model graph limits bounds state) (hg : graph.WellFormed)
    {failure : Failure α} (hpass : model.pass graph limits bounds state = .error failure) :
    limits.Interrupts failure := by
  unfold CostModel.pass Counting.pass at hpass
  rw [CostModel.unbounded_visit] at hpass
  rw [CostModel.checkBounds_eq_ok.mpr h.bounds, Failure.liftM_precondition_ok, ok_bind] at hpass
  split at hpass
  . next hcheck =>
    cases hconsistent : state.checkConsistency model graph with
    | error cause =>
      rw [hconsistent, error_bind, Except.error.injEq] at hpass
      subst hpass
      exact .inr ⟨hcheck, (h.agrees hcheck).drifted hg hconsistent⟩
    | ok _ =>
      rw [hconsistent, ok_bind] at hpass
      exact .inl (Failure.liftM_fault_eq_error hpass)
  . rw [PartitionState.checkShape_eq_ok.mpr h.shaped, ok_bind] at hpass
    exact .inl (Failure.liftM_fault_eq_error hpass)

theorem runPasses (h : Ready model graph limits bounds state) (hg : graph.WellFormed) (n : Nat) :
    Ready model graph limits bounds
        ((model.runPasses graph limits bounds n state).reached state) ∧
      ∀ failure, (model.runPasses graph limits bounds n state).failure = some failure →
        n ≠ 0 ∧ limits.Interrupts failure := by
  induction n generalizing state with
  | zero => exact ⟨h, nofun⟩
  | succ n ih =>
    rw [CostModel.runPasses_succ]
    split
    . next cause hpass =>
      refine ⟨h, ?_⟩
      intro failure hfailure
      rw [Option.some.injEq] at hfailure
      subst hfailure
      exact ⟨by omega, h.failure_pass hg hpass⟩
    . next pass hpass =>
      have hready := of_pass hg hpass
      split
      . exact ⟨hready, nofun⟩
      . obtain ⟨hreached, hfailure⟩ := ih hready
        rw [Passes.reached_cons]
        exact ⟨hreached, fun failure heq => ⟨by omega, (hfailure failure heq).right⟩⟩

variable (model limits bounds state) in
theorem runPasses_cases (hg : graph.WellFormed) (n : Nat) :
    (model.runPasses graph limits bounds n state).reached state = state
      ∨
    Ready model graph limits bounds
        ((model.runPasses graph limits bounds n state).reached state) ∧
      ∀ failure, (model.runPasses graph limits bounds n state).failure = some failure →
        2 ≤ n ∧ limits.Interrupts failure := by
  cases n with
  | zero => exact .inl rfl
  | succ n =>
    rw [CostModel.runPasses_succ]
    split
    . exact .inl rfl
    . next pass hpass =>
      have hready := of_pass hg hpass
      apply Or.inr
      split
      . exact ⟨hready, nofun⟩
      . obtain ⟨hreached, hfailure⟩ := hready.runPasses hg n
        rw [Passes.reached_cons]
        refine ⟨hreached, ?_⟩
        intro failure heq
        obtain ⟨hn, hinterrupts⟩ := hfailure failure heq
        exact ⟨by omega, hinterrupts⟩

end Ready

/--
A refinement that returns an error has left the state as it was, unless the state is checked before
every pass, and the check before a later one has found a drift that the first one let pass.
-/
theorem refine_error_cases (limits : RefineLimits) (bounds : Balance α) (state : PartitionState α)
    (hgraph : graph.Reachable) {failure : Failure α}
    (h : (model.refine graph limits bounds state).outcome = .error failure)
    (hfault : ∀ fault, failure ≠ .fault fault) :
    (model.refine graph limits bounds state).state = state
      ∨
    limits.checkConsistency = true ∧ 2 ≤ limits.maxPasses ∧
      ∃ cause, failure = .precondition cause ∧ cause.Drifted := by
  have hg := hgraph.wellFormed
  have hcases := Ready.runPasses_cases model limits bounds state hg limits.maxPasses
  unfold Passes.reached at hcases
  unfold CostModel.refine Counting.refine at h ⊢
  rw [CostModel.unbounded_runPasses] at h ⊢
  cases hscore : model.score graph state.solution with
  | error cause => exact .inl rfl
  | ok before =>
    rw [hscore] at h
    dsimp only at h ⊢
    cases hcases with
    | inl hsame =>
      apply Or.inl
      split
      . exact hsame
      . exact hsame
      . exact hsame
    | inr hready =>
      obtain ⟨hready, hfailure⟩ := hready
      rw [hready.shaped.admits.score hg] at h
      split at h
      . next _ cause heq =>
        rw [Except.error.injEq] at h
        subst h
        obtain ⟨hpasses, hinterrupts⟩ := hfailure cause heq
        cases hinterrupts with
        | inl hcause =>
          obtain ⟨fault, hcause⟩ := hcause
          exact absurd hcause (hfault fault)
        | inr hdrift => exact .inr ⟨hdrift.left, hpasses, hdrift.right⟩
      . next heq => simp at heq
      . simp at h

theorem refine_error_cases_chain :
    (CostModel.standard.refine .chain .standard #[[4]] .chain).outcome
        = .error (.precondition (.boundsShape 2 1 1)) ∧
      (CostModel.standard.refine .chain .standard #[[4]] .chain).state = .chain := by
  have h : (CostModel.standard.refine .chain .standard #[[4]] .chain).outcome
      = .error (.precondition (.boundsShape 2 1 1)) := by
    decide +kernel
  cases refine_error_cases .standard #[[4]] .chain Hypergraph.reachable_chain h nofun with
  | inl hsame => exact ⟨h, hsame⟩
  | inr hdrift =>
    obtain ⟨_, _, cause, heq, hdrifted⟩ := hdrift
    rw [Failure.precondition.injEq] at heq
    subst heq
    simp [PreconditionError.Drifted] at hdrifted

def Hypergraph.lopsided : Hypergraph ℚ where
  dimensions := ⟨1, 1, 0⟩
  vertices := #[⟨[1000000], []⟩, ⟨[1], []⟩]
  hyperedges := #[⟨[0, 1], [1]⟩]
  vertexHyperedges := #[[0], [0]]
  timing := none

theorem Hypergraph.reachable_lopsided : Hypergraph.lopsided.Reachable := by
  have hempty := Builder.Reachable.empty (α := ℚ) 1 1
  have hv0 := hempty.addVertex [1000000] [] rfl
  have hv1 := hv0.addVertex [1] [] rfl
  have he0 := hv1.addHyperedge [0, 1] [1] rfl
  exact .build he0 (by decide +kernel)

def PartitionState.lopsided : PartitionState ℚ :=
  ⟨#[0, 1], #[[1000000.5], [1]], #[#[1, 1]], #[]⟩

theorem refine_mutates_lopsided :
    Hypergraph.lopsided.Reachable ∧
      CostModel.standard.accept Hypergraph.lopsided = .ok () ∧
      PartitionState.lopsided.checkConsistency .standard .lopsided = .ok () ∧
      (CostModel.standard.refine .lopsided .standard #[[1000000], [1000001]] .lopsided).outcome
        = .error (.precondition (.blockBalanceDrift 0 [0] [0.5])) ∧
      (CostModel.standard.refine .lopsided .standard #[[1000000], [1000001]] .lopsided).state
        ≠ .lopsided := by
  refine ⟨Hypergraph.reachable_lopsided, ?_, ?_, ?_, ?_⟩
  . decide +kernel
  . decide +kernel
  . decide +kernel
  . decide +kernel

end CircuitPartition
