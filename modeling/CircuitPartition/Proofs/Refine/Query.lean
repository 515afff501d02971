import CircuitPartition.Refine.Query
import CircuitPartition.Proofs.Graph.Representation
import CircuitPartition.Proofs.Refine.Counting

/-!
What queries answer to whatever solution, state and bounds. A solution that does not fit is refused
by all of them, and none looks for what is not there. What stops one is a vector that is too long,
or a pin too few or too many in degrees that have not been checked.
-/

namespace CircuitPartition

def Query.Secures {α : Type} (counting : Counting) (graph : Hypergraph α) : Query α → Prop
  | .pass limits _ _ | .refine limits _ _ => limits.Secures counting graph
  | _ => True

namespace CostModel

section Misfit

variable {α : Type} {model : CostModel α} {graph : Hypergraph α}

theorem checkCompatible_eq_ok :
    model.checkCompatible graph = .ok ()
      ↔
    model.hyperedgeFactors.length = graph.dimensions.hyperedge ∧
      model.vertexFactors.length = graph.dimensions.vertex ∧
      model.placementFactors.length = graph.dimensions.placement := by
  have hcheck (factor : Factor) (expected : Nat) :
      checkCompatible.check model factor expected = .ok ()
        ↔
      (model.values factor).length = expected := by
    simp [checkCompatible.check]
  unfold checkCompatible
  rw [check_bind_eq_ok, check_bind_eq_ok, hcheck, hcheck, hcheck]
  rfl

def Misfits (model : CostModel α) (graph : Hypergraph α) (solution : Solution) : Prop :=
  model.hyperedgeFactors.length ≠ graph.dimensions.hyperedge ∨
    model.vertexFactors.length ≠ graph.dimensions.vertex ∨
    model.placementFactors.length ≠ graph.dimensions.placement ∨
    solution.size ≠ graph.numVertices ∨
    ∃ block ∈ solution, model.numParts ≤ block

theorem Admits.not_misfits {solution : Solution} (h : model.Admits graph solution) :
    ¬model.Misfits graph solution := by
  obtain ⟨hhyperedge, hvertex, hplacement⟩ := checkCompatible_eq_ok.mp h.compatible
  rintro (hne | hne | hne | hne | ⟨block, hmem, hle⟩)
  . exact hne hhyperedge
  . exact hne hvertex
  . exact hne hplacement
  . exact hne h.size_eq
  . exact Nat.not_lt.mpr hle (h.lt block hmem)

end Misfit

variable {α : Type}

def Stops (model : CostModel α) (graph : Hypergraph α) (counting : Counting) (query : Query α)
    (fault : Fault) : Prop :=
  fault = .overlong ∧ Machine.maxBytes < query.entryBytes graph * model.numParts ∨
    counting.Raises fault ∧ ¬query.Secures counting graph

variable {model : CostModel α} {graph : Hypergraph α} {counting : Counting} {query : Query α}

theorem safe_reserve_bind {β : Type} {x : Except (Failure α) β}
    (h : Safe (model.Admits graph query.solution) (model.Stops graph counting query) x) :
    Safe (model.Admits graph query.solution) (model.Stops graph counting query)
      ((liftM (model.reserve graph query) : Except (Failure α) Unit) >>= fun _ => x) := by
  unfold reserve
  cases hcheck : model.checkSolution graph query.solution with
  | error failure => exact h
  | ok _ =>
    rw [checkSolution_eq_ok] at hcheck
    change Safe _ _ ((liftM (Machine.reserve _) : Except (Failure α) Unit) >>= fun _ => x)
    unfold Machine.reserve
    split
    . next hbytes =>
      refine ⟨fun hnot => absurd hcheck hnot, ?_⟩
      intro fault hfault
      exact .inl ⟨(Failure.fault.inj (Except.error.inj hfault)).symm, hbytes⟩
    . exact h

variable [Scalar α]

theorem safe_ask (hg : graph.WellFormed) (query : Query α) :
    Safe (model.Admits graph query.solution) (model.Stops graph counting query)
      (model.ask graph counting query) := by
  apply safe_reserve_bind
  cases query with
  | netDegrees solution => exact ((model.guarded_netDegrees solution hg).safe _).discard
  | blockBalance solution => exact ((model.guarded_blockBalance solution hg).safe _).discard
  | cutHyperedges solution => exact ((model.guarded_cutHyperedges solution hg).safe _).discard
  | pathCost p solution => exact (model.safe_pathCost solution hg p _).discard
  | pathCosts solution => exact ((model.guarded_pathCosts solution hg).safe _).discard
  | timingCuts solution => exact ((model.guarded_timingCuts solution hg).safe _).discard
  | score solution => exact ((model.guarded_score solution hg).safe _).discard
  | updateTiming solution => exact model.safe_updateTiming solution hg _
  | ofSolution solution =>
    exact ((PartitionState.guarded_ofSolution model hg solution).safe _).discard
  | checkConsistency state => exact state.safe_checkConsistency model graph hg _
  | pass limits bounds state =>
    exact ((counting.safe_pass model hg limits bounds state).imp fun _ => .inr).discard
  | refine limits bounds state =>
    exact ((counting.safe_refine model hg limits bounds state).imp fun _ => .inr).discard

/--
Every query refuses a model or a solution that does not fit the hypergraph. None stops but at a
vector that is too long, or at a count that leaves its word where the degrees are not known to be
right. Where they are, no count ever does, and refinement is what it is with numbers without bound.
-/
theorem queries_in_range {graph : Hypergraph Double} (h : graph.Obtained)
    (changes : List (Change Double)) (model : CostModel Double) (counting : Counting) :
    let current := graph.changeAll changes
    (∀ query : Query Double,
      (model.Misfits current query.solution →
        ∃ failure, model.ask current counting query = .error failure ∧ failure.IsRefusal) ∧
      ∀ fault, model.ask current counting query = .error (.fault fault) →
        model.Stops current counting query fault) ∧
    (∀ (limits : RefineLimits) (bounds : Balance Double) (state : PartitionState Double),
      (limits.checkConsistency = true → counting.Covers current.numVertices →
        counting.pass model current limits bounds state
            = model.pass current limits bounds state ∧
          (∀ fault, model.pass current limits bounds state ≠ .error (.fault fault)) ∧
          counting.refine model current limits bounds state
            = model.refine current limits bounds state ∧
          ∀ fault, (model.refine current limits bounds state).outcome ≠ .error (.fault fault)) ∧
      (counting ≠ .unbounded → Counting.InWords state.netDegrees →
        (∀ pass, counting.pass model current limits bounds state = .ok pass →
          Counting.InWords pass.state.netDegrees) ∧
        Counting.InWords (counting.refine model current limits bounds state).state.netDegrees)) ∧
    ∀ state truth : PartitionState Double, state.checkShape model current = .ok () →
      PartitionState.ofSolution model current state.solution = .ok truth →
        truth.netDegrees.size = state.netDegrees.size ∧
        truth.pathCosts.size = state.pathCosts.size := by
  intro current
  have hg : current.WellFormed := (h.reachable.changeAll changes).wellFormed
  refine ⟨?_, ?_, ?_⟩
  . intro query
    have hsafe : Safe _ _ (model.ask current counting query) := safe_ask hg query
    exact ⟨fun hmisfit => hsafe.refuses fun hadmits => hadmits.not_misfits hmisfit, hsafe.fault⟩
  . intro limits bounds state
    constructor
    . intro hcheck hcovers
      have hsecure : limits.Secures .unbounded current := ⟨hcheck, .inl rfl⟩
      refine ⟨Counting.pass_eq bounds hg hcovers (.inl hcheck), ?_,
        Counting.refine_eq bounds hg hcovers (.inl hcheck), ?_⟩
      . intro fault hfault
        exact ((Counting.unbounded.safe_pass model hg limits bounds state).fault fault
          hfault).right hsecure
      . intro fault hfault
        exact ((Counting.unbounded.safe_refine model hg limits bounds state).fault fault
          hfault).right hsecure
    . intro hcounting hwords
      exact ⟨fun pass hpass => Counting.inWords_pass hcounting hg hwords hpass,
        Counting.inWords_refine hcounting hg hwords⟩
  . intro state truth hshape htruth
    have hshaped := PartitionState.checkShape_eq_ok.mp hshape
    rw [PartitionState.ofSolution_of_admits hg hshaped.admits, Except.ok.injEq] at htruth
    have htrue := (PartitionState.inStep_recomputed hshaped.admits).shaped
    rw [htruth] at htrue
    exact ⟨htrue.size_netDegrees.trans hshaped.size_netDegrees.symm,
      htrue.size_pathCosts.trans hshaped.size_pathCosts.symm⟩

theorem queries_in_range_thereAndBack :
    let graph := Hypergraph.thereAndBack
    let unchecked : RefineLimits := { RefineLimits.standard with checkConsistency := false }
    let short : Query Double := .pass unchecked #[[2], [2]] ⟨#[0], #[[2], [0]], #[#[2, 0]], #[0]⟩
    let empty : Query Double := .pass .standard #[[2], [2]] ⟨#[0, 0], #[[2], [0]], #[#[0, 0]], #[0]⟩
    graph.Obtained ∧
      (∃ failure, standard.ask graph .wrapping short = .error failure ∧ failure.IsRefusal) ∧
      ∀ fault, standard.ask graph .wrapping empty ≠ .error (.fault fault) := by
  intro graph unchecked short empty
  have h : graph.Obtained := Hypergraph.obtained_thereAndBack
  have hqueries := (queries_in_range h [] standard .wrapping).left
  have hsize : short.solution.size ≠ graph.numVertices := by decide
  refine ⟨h, (hqueries short).left (.inr (.inr (.inr (.inl hsize)))), ?_⟩
  intro fault hfault
  cases (hqueries empty).right fault hfault with
  | inl hlong => exact absurd hlong.right (by decide)
  | inr hraises => exact hraises.right ⟨rfl, .inr (by decide)⟩

/--
With too many blocks for a vector, nothing is answered that takes one with an entry for each of them.
In degrees that are said not to be looked at, a pin can be missing, or be one too many.
-/
theorem queries_stop_thereAndBack :
    let graph := Hypergraph.thereAndBack
    let wide : CostModel Double := { standard with numParts := 2 ^ 64 - 1 }
    let three : CostModel Double := { standard with numParts := 3 }
    let unchecked : RefineLimits := { RefineLimits.standard with checkConsistency := false }
    let laidOut : List (Query Double) := [.netDegrees #[0, 1], .blockBalance #[0, 1],
      .pathCost 0 #[0, 1], .pathCosts #[0, 1], .score #[0, 1], .ofSolution #[0, 1],
      .refine .standard #[] ⟨#[0, 1], #[], #[], #[]⟩]
    let counted (degrees : Degrees) : List (Query Double) :=
      let state : PartitionState Double := ⟨#[1, 2], #[[0], [1], [1]], #[degrees], #[0]⟩
      [.pass unchecked #[[2], [2], [2]] state, .refine unchecked #[[2], [2], [2]] state]
    graph.Obtained ∧
      wide.Admits graph #[0, 1] ∧
      (∀ counting, ∀ query ∈ laidOut,
        wide.ask graph counting query = .error (.fault .overlong)) ∧
      three.Admits graph #[1, 2] ∧
      (∀ query ∈ counted #[1, 0, 1],
        three.ask graph .stopping query = .error (.fault .noPinLeft)) ∧
      ∀ query ∈ counted #[2 ^ 64 - 1, 1, 1],
        three.ask graph .stopping query = .error (.fault .tooManyPins) := by
  intro graph wide three unchecked laidOut counted
  refine ⟨Hypergraph.obtained_thereAndBack, checkSolution_eq_ok.mp (by decide +kernel), ?_,
    checkSolution_eq_ok.mp (by decide +kernel), by decide +kernel, by decide +kernel⟩
  intro counting
  cases counting with
  | unbounded => decide +kernel
  | stopping => decide +kernel
  | wrapping => decide +kernel

end CostModel

end CircuitPartition
