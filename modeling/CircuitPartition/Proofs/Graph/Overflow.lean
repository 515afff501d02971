import CircuitPartition.Proofs.Cost.Slack
import CircuitPartition.Proofs.Graph.Representation

/-!
How an update of the timing can fail. Where the model or the solution does not fit, nothing has
changed. Where the charges leave a slack that is not finite, the slacks before it have been set, and
neither the derived costs nor anything else has.
-/

namespace CircuitPartition

def CostModel.delayed : CostModel Double :=
  { CostModel.standard with cutDelay := ⟨0x7fe0000000000000⟩ }

namespace Hypergraph

open CostModel (delayed)

def twoLegs : Hypergraph Double where
  dimensions := ⟨1, 1, 0⟩
  vertices := #[⟨[1], []⟩, ⟨[1], []⟩, ⟨[1], []⟩]
  hyperedges := #[⟨[0, 1], [1]⟩, ⟨[1, 2], [1]⟩]
  vertexHyperedges := #[[0], [0, 1], [1]]
  timing := some {
    clockPeriod := 4.0
    baseHyperedgeSlack := #[4.0, 4.0]
    hyperedgeSlack := #[4.0, 4.0]
    paths := #[⟨[0, 1], [0], 3.0, 3.0⟩, ⟨[0, 1, 2], [0, 1], 3.0, 3.0⟩]
    vertexPaths := #[[0, 1], [0, 1], [1]]
    hyperedgePaths := #[[0, 1], [1]]
    derived := none }

theorem obtained_twoLegs : twoLegs.Obtained :=
  .build 1 1 [.withClockPeriod 4.0, .addVertex [1] [], .addVertex [1] [], .addVertex [1] [],
    .addHyperedge [0, 1] [1], .addHyperedge [1, 2] [1], .addPath [0, 1] [0] 3.0,
    .addPath [0, 1, 2] [0, 1] 3.0] (by decide +kernel)

/--
An update that fails has changed nothing, or it has come to a slack that the charges leave not
finite, and has set those before it: paths come first, then hyperedges.
-/
theorem updateTiming_error_cases {graph : Hypergraph Double} (h : graph.Obtained)
    (changes : List (Change Double)) (model : CostModel Double) (solution : Solution)
    (failure : Failure Double) :
    let current := graph.changeAll changes
    let update := model.updateTiming current solution
    update.outcome = .error failure →
      (model.checkSolution current solution = .error failure ∧ update.graph = current)
        ∨
      ∃ timing, current.timing = some timing ∧
        let slacks := model.chargedSlacks current solution timing
        ((∃ slack ∈ slacks.path, slack.isFinite = false) ∧
          failure = .graph (.nonFinite .pathSlack 0) ∧
          update.graph = { current with
            timing := some (timing.withPathSlacks (slacks.path.takeWhile Scalar.isFinite)) }) ∨
        ((∀ slack ∈ slacks.path, slack.isFinite = true) ∧
          (∃ slack ∈ slacks.hyperedge, slack.isFinite = false) ∧
          failure = .graph (.nonFinite .hyperedgeSlack 0) ∧
          update.graph = { current with
            timing := some ((timing.withPathSlacks slacks.path).withHyperedgeSlacks
              (slacks.hyperedge.takeWhile Scalar.isFinite)) }) := by
  intro current update herror
  have hg : current.WellFormed := (h.reachable.changeAll changes).wellFormed
  cases hcheck : model.checkSolution current solution with
  | error cause =>
    have hupdate : update = ⟨current, .error cause⟩ := by
      unfold update CostModel.updateTiming
      rw [hcheck]
    rw [hupdate] at herror ⊢
    exact .inl ⟨herror, rfl⟩
  | ok _ =>
    rw [CostModel.checkSolution_eq_ok] at hcheck
    cases ht : current.timing with
    | none =>
      have hupdate : update.outcome = .ok () := by
        unfold update CostModel.updateTiming
        rw [CostModel.checkSolution_eq_ok.mpr hcheck, ht]
      rw [hupdate] at herror
      simp at herror
    | some timing =>
      refine .inr ⟨timing, rfl, ?_⟩
      rcases model.updateTiming_split hg ht hcheck with hdone | hpath | hhyperedge
      . rw [hdone.right.right] at herror
        simp at herror
      . obtain ⟨hpath, hupdate⟩ := hpath
        unfold update at herror ⊢
        rw [hupdate] at herror ⊢
        exact .inl ⟨hpath, (Except.error.inj herror).symm, rfl⟩
      . obtain ⟨hpath, hhyperedge, hupdate⟩ := hhyperedge
        unfold update at herror ⊢
        rw [hupdate] at herror ⊢
        exact .inr ⟨hpath, hhyperedge, (Except.error.inj herror).symm, rfl⟩

theorem updateTiming_error_cases_twoLegs :
    twoLegs.Obtained ∧
      (delayed.updateTiming twoLegs #[0, 1, 0]).outcome
        = .error (.graph (.nonFinite .pathSlack 0)) ∧
      ∃ timing, twoLegs.timing = some timing ∧
        (delayed.updateTiming twoLegs #[0, 1, 0]).graph
          = { twoLegs with timing := some (timing.withPathSlacks [-⟨0x7fe0000000000000⟩]) } := by
  have herror : (delayed.updateTiming twoLegs #[0, 1, 0]).outcome
      = .error (.graph (.nonFinite .pathSlack 0)) := by
    decide +kernel
  refine ⟨obtained_twoLegs, herror, ?_⟩
  rcases updateTiming_error_cases obtained_twoLegs [] delayed #[0, 1, 0] _ herror with hsame | hset
  . exact absurd hsame.left (by decide +kernel)
  . obtain ⟨timing, ht, hpath | hhyperedge⟩ := hset
    . refine ⟨timing, ht, hpath.right.right.trans ?_⟩
      cases ht
      decide +kernel
    . exact absurd hhyperedge.right.right.left (by decide)

theorem not_atomic_twoLegs :
    twoLegs.Obtained ∧ delayed.accept twoLegs = .ok () ∧
      (delayed.updateTiming twoLegs #[0, 1, 0]).outcome
        = .error (.graph (.nonFinite .pathSlack 0)) ∧
      (delayed.updateTiming twoLegs #[0, 1, 0]).graph ≠ twoLegs := by
  refine ⟨obtained_twoLegs, ?_⟩
  decide +kernel

end Hypergraph

end CircuitPartition
