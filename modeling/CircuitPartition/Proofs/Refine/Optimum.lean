import CircuitPartition.Proofs.Refine.Choice

/-!
Passes that gain nothing. Such a pass has moved nothing, so that all further ones would do the same;
and unless its budget is too small for the cut hyperedges, its state is a local optimum.
-/

namespace CircuitPartition

variable {α : Type}

def CostModel.runAllPasses [Scalar α] (model : CostModel α) (graph : Hypergraph α)
    (limits : RefineLimits) (bounds : Balance α) : Nat → PartitionState α → Passes α
  | 0, _ => ⟨[], none⟩
  | n + 1, state =>
    match model.pass graph limits bounds state with
    | .error failure => ⟨[], some failure⟩
    | .ok pass =>
      let rest := runAllPasses model graph limits bounds n pass.state
      ⟨pass :: rest.done, rest.failure⟩

/--
Going through `es` has moved nothing. If the budget was enough for all of them that are cut, none
has a legal move that would gain more than the tolerance.
-/
structure Pass.Idle [Scalar α] (model : CostModel α) (graph : Hypergraph α) (bounds : Balance α)
    (maxMoves : Nat) (es : List Nat) (before after : Pass α) : Prop where
  state_eq : after.state = before.state
  gain_eq : after.gain = before.gain
  moves_eq : after.moves = before.moves
  optimal :
    before.visited + (es.filter (graph.cut before.state.solution.blockOf)).length < maxMoves →
    ∀ e ∈ es, graph.cut before.state.solution.blockOf e = true →
    ∀ target move, model.Offers graph bounds before.state e target move →
      move.gain ≤ Gain.tolerance

variable [ExactScalar α] {model : CostModel α} {graph : Hypergraph α} {bounds : Balance α}

namespace Pass.Idle

variable {maxMoves e : Nat} {es : List Nat} {before after : Pass α}

theorem cons_of_uncut (h : Idle model graph bounds maxMoves es before after)
    (huncut : ¬graph.cut before.state.solution.blockOf e = true) :
    Idle model graph bounds maxMoves (e :: es) before after := by
  refine ⟨h.state_eq, h.gain_eq, h.moves_eq, ?_⟩
  intro hbudget e' he' hcut
  rw [List.filter_cons_of_neg huncut] at hbudget
  cases List.mem_cons.mp he' with
  | inl heq =>
    subst heq
    exact absurd hcut huncut
  | inr hmem => exact h.optimal hbudget e' hmem hcut

theorem cons_of_cut
    (h : Idle model graph bounds maxMoves es { before with visited := before.visited + 1 } after)
    (hcut : graph.cut before.state.solution.blockOf e = true)
    (hbest : ∀ target move, model.Offers graph bounds before.state e target move →
      move.gain ≤ Gain.tolerance) :
    Idle model graph bounds maxMoves (e :: es) before after := by
  refine ⟨h.state_eq, h.gain_eq, h.moves_eq, ?_⟩
  intro hbudget e' he' hcut'
  rw [List.filter_cons_of_pos hcut, List.length_cons] at hbudget
  cases List.mem_cons.mp he' with
  | inl heq =>
    subst heq
    exact hbest
  | inr hmem =>
    apply h.optimal _ e' hmem hcut'
    dsimp only
    omega

theorem of_stopped (hcut : graph.cut before.state.solution.blockOf e = true)
    (hspent : maxMoves ≤ before.visited + 1) :
    Idle model graph bounds maxMoves (e :: es) before
      { before with visited := before.visited + 1, stoppedAt := some e } := by
  refine ⟨rfl, rfl, rfl, ?_⟩
  intro hbudget
  rw [List.filter_cons_of_pos hcut, List.length_cons] at hbudget
  omega

end Pass.Idle

namespace PartitionState.InStep

variable (hg : graph.WellFormed) (hb : bounds.HasShape model.numParts graph.dimensions.vertex)

include hg hb

theorem visited_cases {pass : Pass α} (h : pass.state.InStep model graph) (maxMoves : Nat)
    {es : List Nat} (hes : ∀ e ∈ es, e < graph.numHyperedges) :
    pass.gain + Gain.tolerance < (model.visited graph bounds maxMoves es pass).gain
      ∨
    pass.Idle model graph bounds maxMoves es (model.visited graph bounds maxMoves es pass) := by
  -- Whatever is committed gains more than the tolerance, and nothing that comes later loses it.
  have htolerance : (0 : α) < Gain.tolerance := Gain.tolerance_pos
  induction es generalizing pass with
  | nil => exact .inr ⟨rfl, rfl, rfl, by simp⟩
  | cons e es ih =>
    rw [List.forall_mem_cons] at hes
    unfold CostModel.visited
    split
    . next hcut =>
      split
      . next hspent => exact .inr (.of_stopped hcut hspent)
      . have himproved : (model.improved graph bounds pass e).state.InStep model graph :=
          h.improved hg e
        have hrest := ih himproved hes.right
        cases CostModel.improve_cases hb (h.improve_eq hg hb hes.left) with
        | inl hgain =>
          apply Or.inl
          cases hrest with
          | inl hmore => linarith
          | inr hidle => rwa [hidle.gain_eq]
        | inr hstays =>
          obtain ⟨heq, hbest⟩ := hstays
          rw [heq] at hrest ⊢
          exact hrest.imp_right (·.cons_of_cut hcut hbest)
    . next huncut => exact (ih h hes.right).imp_right (·.cons_of_uncut huncut)

variable {state : PartitionState α} (h : state.InStep model graph) {limits : RefineLimits}

include h

theorem idle_passed (hgain : (model.passed graph bounds limits state).gain ≤ 0) :
    Pass.Idle model graph bounds limits.maxMoves (List.range graph.numHyperedges) (.start state)
      (model.passed graph bounds limits state) := by
  have hstart : (Pass.start state).state.InStep model graph := h
  cases hstart.visited_cases hg hb limits.maxMoves (fun _ => List.mem_range.mp) with
  | inl hmore =>
    have htolerance : (0 : α) < Gain.tolerance := Gain.tolerance_pos
    have hpassed : 0 + Gain.tolerance < (model.passed graph bounds limits state).gain := hmore
    linarith
  | inr hidle => exact hidle

variable (limits) in
theorem runAllPasses_succ (n : Nat) :
    model.runAllPasses graph limits bounds (n + 1) state
      =
    let pass := model.passed graph bounds limits state
    let rest := model.runAllPasses graph limits bounds n pass.state
    ⟨pass :: rest.done, rest.failure⟩ := by
  rw [CostModel.runAllPasses, h.pass_eq hg hb limits]

variable (limits) in
theorem runAllPasses_complete (n : Nat) :
    (model.runAllPasses graph limits bounds n state).failure = none ∧
      (model.runAllPasses graph limits bounds n state).done.length = n := by
  induction n generalizing state with
  | zero => exact ⟨rfl, rfl⟩
  | succ n ih =>
    obtain ⟨hfailure, hlength⟩ := ih (h.passed bounds hg limits)
    rw [h.runAllPasses_succ hg hb limits]
    exact ⟨hfailure, congrArg (· + 1) hlength⟩

theorem runAllPasses_of_gain_le (hgain : (model.passed graph bounds limits state).gain ≤ 0)
    (n : Nat) :
    model.runAllPasses graph limits bounds n state
      =
    ⟨List.replicate n (model.passed graph bounds limits state), none⟩ := by
  have hstate : (model.passed graph bounds limits state).state = state :=
    (h.idle_passed hg hb hgain).state_eq
  induction n with
  | zero => rfl
  | succ n ih =>
    rw [h.runAllPasses_succ hg hb limits]
    dsimp only
    rw [hstate, ih]
    rfl

variable (limits) in
theorem runAllPasses_agrees (n : Nat) :
    (model.runAllPasses graph limits bounds n state).reached state
        = (model.runPasses graph limits bounds n state).reached state ∧
      ((model.runAllPasses graph limits bounds n state).done.map (·.gain)).sum
        = ((model.runPasses graph limits bounds n state).done.map (·.gain)).sum := by
  induction n generalizing state with
  | zero => exact ⟨rfl, rfl⟩
  | succ n ih =>
    rw [h.runPasses_succ hg hb limits]
    split
    . next hgain =>
      have hzero : (model.passed graph bounds limits state).gain = 0 :=
        (h.idle_passed hg hb hgain).gain_eq
      rw [h.runAllPasses_of_gain_le hg hb hgain]
      constructor
      . simp [Passes.reached, List.getLast?_replicate]
      . simp [hzero]
    . obtain ⟨hreached, hsum⟩ := ih (h.passed bounds hg limits)
      rw [h.runAllPasses_succ hg hb limits, Passes.reached_cons, Passes.reached_cons]
      dsimp only
      rw [List.map_cons, List.map_cons, List.sum_cons, List.sum_cons, hsum]
      exact ⟨hreached, rfl⟩

end PartitionState.InStep

theorem gainless_pass_optimal (limits : RefineLimits) {state : PartitionState α}
    (hgraph : graph.Reachable)
    (htruth : PartitionState.ofSolution model graph state.solution = .ok state)
    (hbounds : bounds.HasShape model.numParts graph.dimensions.vertex) :
    (∃ pass, model.pass graph limits bounds state = .ok pass ∧
      (pass.gain ≤ 0 →
        pass.moves = [] ∧ pass.state = state ∧
        ∃ cut, model.cutHyperedges graph state.solution = .ok cut ∧
          (cut.length < limits.maxMoves →
            ∀ e ∈ cut, ∀ target, CostModel.isLegal? graph bounds state e target = some true →
              ∃ move, model.gain? graph state e target = some move ∧
                move.gain ≤ Gain.tolerance))) ∧
    ∃ summary, (model.refine graph limits bounds state).outcome = .ok summary ∧
      let all := model.runAllPasses graph limits bounds limits.maxPasses state
      all.failure = none ∧ all.done.length = limits.maxPasses ∧
      (model.refine graph limits bounds state).state = all.reached state ∧
      summary.totalGain = Scalar.sum (all.done.map (·.gain)) := by
  have hg := hgraph.wellFormed
  have h := (PartitionState.ofSolution_eq_ok_iff hg).mp htruth
  constructor
  . refine ⟨_, h.pass_eq hg hbounds limits, ?_⟩
    intro hgain
    have hidle := h.idle_passed hg hbounds hgain
    refine ⟨hidle.moves_eq, hidle.state_eq, _, h.admits.cutHyperedges hg, ?_⟩
    intro hbudget e he target hlegal
    rw [List.mem_filter, List.mem_range] at he
    have ht : target < model.numParts := by
      rw [← hbounds.size_eq]
      exact CostModel.lt_of_isLegal? hlegal
    have hpriced := h.gain?_eq hg he.left ht
    refine ⟨_, hpriced, ?_⟩
    apply hidle.optimal _ e (List.mem_range.mpr he.left) he.right target _ ⟨hlegal, hpriced⟩
    rw [Pass.start, Nat.zero_add]
    exact hbudget
  . obtain ⟨hfailure, hlength⟩ := h.runAllPasses_complete hg hbounds limits limits.maxPasses
    obtain ⟨hreached, hsum⟩ := h.runAllPasses_agrees hg hbounds limits limits.maxPasses
    rw [h.refine_eq hg hbounds limits]
    refine ⟨_, rfl, hfailure, hlength, hreached.symm, ?_⟩
    dsimp only
    rw [ExactScalar.sum_eq_sum, ExactScalar.sum_eq_sum, hsum]

theorem gainless_pass_optimal_chain :
    (∃ pass, CostModel.standard.pass Hypergraph.chain .standard #[[0], [0]] .chain = .ok pass ∧
      pass.gain = 0 ∧ pass.moves = [] ∧ pass.state = .chain) ∧
    ∃ summary, (CostModel.standard.refine Hypergraph.chain .standard #[[0], [0]] .chain).outcome
        = .ok summary ∧
      let all := CostModel.standard.runAllPasses Hypergraph.chain .standard #[[0], [0]] 2 .chain
      all.failure = none ∧ all.done.length = 2 ∧
      summary.totalGain = Scalar.sum (all.done.map (·.gain)) := by
  have hbounds : Balance.HasShape 2 1 (#[[0], [0]] : Balance ℚ) := ⟨rfl, by simp⟩
  obtain ⟨⟨pass, hpass, hgainless⟩, summary, houtcome, hfailure, hlength, _, htotal⟩ :=
    gainless_pass_optimal .standard Hypergraph.reachable_chain PartitionState.ofSolution_chain
      hbounds
  have hgain : (CostModel.standard.pass Hypergraph.chain .standard #[[0], [0]]
      .chain).toOption.map (·.gain) = some 0 := by
    decide +kernel
  rw [hpass] at hgain
  have hzero : pass.gain = 0 := Option.some.inj hgain
  obtain ⟨hmoves, hstate, _⟩ := hgainless hzero.le
  exact ⟨⟨pass, hpass, hzero, hmoves, hstate⟩, summary, houtcome, hfailure, hlength, htotal⟩

end CircuitPartition
