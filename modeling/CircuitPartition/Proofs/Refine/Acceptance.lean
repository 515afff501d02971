import CircuitPartition.Proofs.Double
import CircuitPartition.Proofs.Graph.Representation
import CircuitPartition.Proofs.Partition.Weighing
import CircuitPartition.Proofs.Refine.Steps

/-!
Which states the library accepts of those that it has made itself. Rounding can keep it from doing
so, and infinite weights and costs do; nothing else can. Sums of whole weights are not rounded.
-/

namespace CircuitPartition

namespace PartitionState

def Finite (state : PartitionState Double) : Prop :=
  (∀ row ∈ state.blockBalance, ∀ weight ∈ row, weight.isFinite = true) ∧
    ∀ cost ∈ state.pathCosts, cost.isFinite = true

inductive Verdict (state truth : PartitionState Double) : Except (Failure Double) Unit → Prop where
  | accepted :
    (∀ (block : Nat) actual expected, state.blockBalance[block]? = some actual →
      truth.blockBalance[block]? = some expected → sameWeights actual expected = true) →
    (∀ cost ∈ state.pathCosts, cost.isFinite = true) → Verdict state truth (.ok ())
  | balanceDrift (block : Nat) (expected actual : List Double) :
    state.blockBalance[block]? = some actual → truth.blockBalance[block]? = some expected →
    sameWeights actual expected = false →
    Verdict state truth (.error (.precondition (.blockBalanceDrift block expected actual)))
  | costDrift (p : Nat) (cost : Double) :
    state.pathCosts[p]? = some cost → cost.isFinite = false →
    Verdict state truth (.error (.precondition (.pathCostDrift p cost cost)))

theorem sameWeights_self_eq (row : List Double) : sameWeights row row = row.all (·.isFinite) := by
  unfold sameWeights
  rw [List.zip_eq_zipWith, List.zipWith_self, List.all_map]
  congr 1
  funext weight
  exact weight.approxEq_self

variable {model : CostModel Double} {graph : Hypergraph Double} {state : PartitionState Double}

theorem InStep.verdict (h : state.InStep model graph) (hg : graph.WellFormed) :
    Verdict state (recomputed model graph state.solution) (state.checkConsistency model graph) := by
  have hdegrees : state.netDegrees = (recomputed model graph state.solution).netDegrees :=
    h.netDegrees_eq
  have hcosts : state.pathCosts = (recomputed model graph state.solution).pathCosts :=
    h.pathCosts_eq
  rw [h.shaped.checkConsistency_eq hg]
  split
  . next cause hdrift =>
    rcases findDrift_cases hdrift with hdegree | hbalance | hcost
    . obtain ⟨e, ours, theirs, hours, htheirs, hne⟩ := hdegree
      rw [hdegrees] at hours
      exact absurd (Option.some.inj (hours.symm.trans htheirs)) hne
    . obtain ⟨block, ours, theirs, hours, htheirs, hfar, rfl⟩ := hbalance
      exact .balanceDrift block theirs ours hours htheirs hfar
    . obtain ⟨p, ours, theirs, hours, htheirs, hfar, rfl⟩ := hcost
      rw [← hcosts] at htheirs
      cases Option.some.inj (hours.symm.trans htheirs)
      rw [Double.approxEq_self] at hfar
      exact .costDrift p ours hours hfar
  . next hdrift =>
    obtain ⟨_, hbalances, hnear⟩ := eq_of_findDrift hdrift
    refine .accepted hbalances ?_
    intro cost hmem
    obtain ⟨p, hcost⟩ := Array.mem_iff_getElem?.mp hmem
    rw [← Double.approxEq_self]
    exact hnear p cost cost hcost (hcosts ▸ hcost)

theorem checkConsistency_recomputed {solution : Solution} (hg : graph.WellFormed)
    (hs : model.Admits graph solution) :
    (recomputed model graph solution).checkConsistency model graph = .ok ()
      ↔
    (recomputed model graph solution).Finite := by
  have hverdict := (inStep_recomputed hs).verdict hg
  constructor
  . intro hok
    rw [hok] at hverdict
    cases hverdict with
    | accepted hbalances hcosts =>
      refine ⟨?_, hcosts⟩
      intro row hmem
      obtain ⟨block, hrow⟩ := Array.mem_iff_getElem?.mp hmem
      have hsame := hbalances block row row hrow hrow
      rwa [sameWeights_self_eq, List.all_eq_true] at hsame
  . intro hfinite
    generalize (recomputed model graph solution).checkConsistency model graph = outcome at hverdict ⊢
    cases hverdict with
    | accepted _ _ => rfl
    | balanceDrift block expected actual hactual hexpected hfar =>
      obtain rfl : actual = expected := Option.some.inj (hactual.symm.trans hexpected)
      rw [sameWeights_self_eq, List.all_eq_false] at hfar
      obtain ⟨weight, hweight, hinfinite⟩ := hfar
      exact absurd (hfinite.left actual (Array.mem_of_getElem? hactual) weight hweight) hinfinite
    | costDrift p cost hcost hinfinite =>
      have hcost := hfinite.right cost (Array.mem_of_getElem? hcost)
      rw [hinfinite] at hcost
      simp at hcost

section Whole

variable {w : Nat → Nat → ℤ} (hw : graph.Weighs w)

include hw

theorem Step.balanced {next : PartitionState Double} (hstep : Step model graph state next)
    (hs : model.Admits graph state.solution)
    (hbalance : state.blockBalance = model.balanceTable graph state.solution) :
    model.Admits graph next.solution ∧
      next.blockBalance = model.balanceTable graph next.solution := by
  cases hstep with
  | moved hv ht =>
    refine ⟨hs.set! _ ht, ?_⟩
    unfold PartitionState.moved
    dsimp only
    rw [hbalance, hs.shift_balanceTable_of_weighs hw hv]
  | priced pathCosts => exact ⟨hs, hbalance⟩

theorem steps_balanced {next : PartitionState Double}
    (hsteps : Relation.ReflTransGen (Step model graph) state next)
    (hs : model.Admits graph state.solution)
    (hbalance : state.blockBalance = model.balanceTable graph state.solution) :
    model.Admits graph next.solution ∧
      next.blockBalance = model.balanceTable graph next.solution := by
  induction hsteps with
  | refl => exact ⟨hs, hbalance⟩
  | tail _ hstep ih => exact hstep.balanced hw ih.left ih.right

theorem finite_balanceTable (solution : Solution) :
    ∀ row ∈ model.balanceTable graph solution, ∀ weight ∈ row, weight.isFinite = true := by
  rw [CostModel.balanceTable_eq_heaps model hw]
  intro row hrow weight hweight
  simp only [heaps, Array.mem_map] at hrow
  obtain ⟨block, _, rfl⟩ := hrow
  rw [List.mem_map] at hweight
  obtain ⟨d, hd, rfl⟩ := hweight
  exact Double.isFinite_whole
    (hw.natAbs_heap_lt (Finset.Subset.refl _) solution.blockOf block (List.mem_range.mp hd))

end Whole

end PartitionState

/--
A state that has just been computed is accepted just if everything in it is finite. After any run
its degrees and path costs are still those of a recomputation: it is refused only where a balance has
drifted from the recomputed one further than the check allows, or where a path cost is not finite.
Balances of whole weights do not drift at all, as long as no block can weigh `2 ^ 53`.
-/
theorem checkConsistency_performAll {vertexDimensions hyperedgeDimensions : Nat}
    {calls : List (Builder.Call Double)} {graph : Hypergraph Double}
    (hbuild : (Builder.assemble vertexDimensions hyperedgeDimensions calls).build = .ok graph)
    {model : CostModel Double} (haccept : model.accept graph = .ok ()) {solution : Solution}
    (hsize : solution.size = graph.numVertices) (hlt : ∀ block ∈ solution, block < model.numParts) :
    ∃ start, PartitionState.ofSolution model graph solution = .ok start ∧
      (start.checkConsistency model graph = .ok () ↔ start.Finite) ∧
      ∀ operations : List (Operation Double),
        (∀ operation ∈ operations, operation.InRange model graph) →
          let state := model.performAll graph start operations
          ∃ truth, PartitionState.ofSolution model graph state.solution = .ok truth ∧
            truth.netDegrees = state.netDegrees ∧ truth.pathCosts = state.pathCosts ∧
            state.Verdict truth (state.checkConsistency model graph) ∧
            ∀ w : Nat → Nat → ℤ, graph.Weighs w →
              truth = state ∧
                (state.checkConsistency model graph = .ok ()
                  ↔
                ∀ cost ∈ state.pathCosts, cost.isFinite = true) := by
  have hg : graph.WellFormed :=
    (Hypergraph.Obtained.build vertexDimensions hyperedgeDimensions calls hbuild).reachable.wellFormed
  have hs : model.Admits graph solution := .of_accept haccept hsize hlt
  have hstart := PartitionState.inStep_recomputed hs
  refine ⟨_, PartitionState.ofSolution_of_admits hg hs,
    PartitionState.checkConsistency_recomputed hg hs, ?_⟩
  intro operations hrange state
  have hrun : state.InStep model graph := hstart.performAll hg hrange
  refine ⟨_, PartitionState.ofSolution_of_admits hg hrun.admits, hrun.netDegrees_eq.symm,
    hrun.pathCosts_eq.symm, hrun.verdict hg, ?_⟩
  intro w hw
  have hbalanced := PartitionState.steps_balanced hw (hstart.steps_performAll hg hrange) hs rfl
  have htruth := hrun.eq_recomputed_of_blockBalance hbalanced.right
  refine ⟨htruth.symm, ?_⟩
  have hcheck := PartitionState.checkConsistency_recomputed hg hrun.admits
  rw [← htruth] at hcheck
  rw [hcheck]
  constructor
  . exact And.right
  . intro hcosts
    refine ⟨?_, hcosts⟩
    rw [hbalanced.right]
    exact PartitionState.finite_balanceTable hw state.solution

namespace Hypergraph

def weighed (first second : Double) : Hypergraph Double where
  dimensions := ⟨1, 1, 0⟩
  vertices := #[⟨[first], []⟩, ⟨[second], []⟩]
  hyperedges := #[⟨[0], [1]⟩]
  vertexHyperedges := #[[0], []]
  timing := none

def weighing (first second : Double) : Builder Double :=
  .assemble 1 1 [.addVertex [first] [], .addVertex [second] [], .addHyperedge [0] [1]]

end Hypergraph

open CircuitPartition.Hypergraph (weighed weighing)

theorem weighs_weighed : (weighed 1 2).Weighs fun v _ => v + 1 := by
  constructor
  . decide +kernel
  . decide

theorem checkConsistency_performAll_weighed :
    (weighing 1 2).build = .ok (weighed 1 2) ∧
      ∃ start, PartitionState.ofSolution .standard (weighed 1 2) #[0, 0] = .ok start ∧
        start.checkConsistency .standard (weighed 1 2) = .ok () ∧
        let state := CostModel.standard.performAll (weighed 1 2) start [.commit ⟨0, some 1, 0, 0⟩]
        PartitionState.ofSolution .standard (weighed 1 2) state.solution = .ok state ∧
          state.checkConsistency .standard (weighed 1 2) = .ok () := by
  have hbuild : (weighing 1 2).build = .ok (weighed 1 2) := by decide +kernel
  have haccept : CostModel.standard.accept (weighed 1 2) = .ok () := by decide +kernel
  have hsize : (#[0, 0] : Solution).size = (weighed 1 2).numVertices := rfl
  obtain ⟨start, hstart, hfresh, hrun⟩ :=
    checkConsistency_performAll hbuild haccept hsize (by decide)
  obtain ⟨truth, htruth, _, _, _, hwhole⟩ := hrun [.commit ⟨0, some 1, 0, 0⟩] (by decide)
  obtain ⟨rfl, hcheck⟩ := hwhole _ weighs_weighed
  have hcomputed : PartitionState.ofSolution .standard (weighed 1 2) #[0, 0]
      = .ok ⟨#[0, 0], #[[3], [0]], #[#[1, 0]], #[]⟩ := by
    decide +kernel
  rw [hcomputed, Except.ok.injEq] at hstart
  subst hstart
  refine ⟨hbuild, _, hcomputed, hfresh.mpr ?_, htruth, hcheck.mpr ?_⟩
  . unfold PartitionState.Finite
    decide +kernel
  . decide +kernel

theorem refuses_own_weighed :
    ((weighing 1e308 1e308).build = .ok (weighed 1e308 1e308) ∧
      CostModel.standard.accept (weighed 1e308 1e308) = .ok () ∧
      ∃ start, PartitionState.ofSolution .standard (weighed 1e308 1e308) #[0, 0] = .ok start ∧
        start.checkConsistency .standard (weighed 1e308 1e308)
          = .error (.precondition (.blockBalanceDrift 0 [.infinity] [.infinity]))) ∧
    (weighing 1e16 1).build = .ok (weighed 1e16 1) ∧
      CostModel.standard.accept (weighed 1e16 1) = .ok () ∧
      ∃ start, PartitionState.ofSolution .standard (weighed 1e16 1) #[0, 0] = .ok start ∧
        (CostModel.standard.performAll (weighed 1e16 1) start
          [.commit ⟨0, some 1, 0, 0⟩]).checkConsistency .standard (weighed 1e16 1)
          = .error (.precondition (.blockBalanceDrift 0 [1] [0])) := by
  refine ⟨⟨?_, ?_, ⟨#[0, 0], #[[.infinity], [0]], #[#[1, 0]], #[]⟩, ?_, ?_⟩, ?_, ?_,
    ⟨#[0, 0], #[[1e16], [0]], #[#[1, 0]], #[]⟩, ?_, ?_⟩
  all_goals decide +kernel

end CircuitPartition
