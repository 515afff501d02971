import CircuitPartition.Proofs.Partition.Consistency
import CircuitPartition.Proofs.Refine.Price
import CircuitPartition.Refine.Run

/-!
A pass as a plain function of the state it starts from, and what a step keeps is kept by the pass.
-/

namespace CircuitPartition

variable {α : Type} [Scalar α]

namespace CostModel

variable (model : CostModel α) (graph : Hypergraph α) (bounds : Balance α)

def improved (pass : Pass α) (e : Nat) : Pass α :=
  let best := model.bestMove graph bounds pass.state e
  match best.target with
  | none => { pass with visited := pass.visited + 1, gain := pass.gain + 0 }
  | some target =>
    { pass with
      state := pass.state.committed model graph e target
      visited := pass.visited + 1
      gain := pass.gain + best.gain
      moves := best :: pass.moves }

def visited (maxMoves : Nat) : List Nat → Pass α → Pass α
  | [], pass => pass
  | e :: es, pass =>
    if graph.cut pass.state.solution.blockOf e then
      if maxMoves ≤ pass.visited + 1 then
        { pass with visited := pass.visited + 1, stoppedAt := some e }
      else
        visited maxMoves es (model.improved graph bounds pass e)
    else
      visited maxMoves es pass

def passed (limits : RefineLimits) (state : PartitionState α) : Pass α :=
  model.visited graph bounds limits.maxMoves (List.range graph.numHyperedges)
    ⟨state, 0, 0, [], none⟩

variable {model graph bounds}

theorem improved_cases (pass : Pass α) (e : Nat) :
    model.improved graph bounds pass e
        = { pass with visited := pass.visited + 1, gain := pass.gain + 0 }
      ∨
    ∃ target < model.numParts, legal graph bounds pass.state e target = true ∧
      model.bestMove graph bounds pass.state e = model.candidate graph pass.state.solution e target ∧
      model.improved graph bounds pass e
        =
      { pass with
        state := pass.state.committed model graph e target
        visited := pass.visited + 1
        gain := pass.gain + model.price graph pass.state.solution e target
        moves := model.candidate graph pass.state.solution e target :: pass.moves } := by
  cases model.bestMove_cases graph bounds pass.state e with
  | inl hbest =>
    apply Or.inl
    unfold improved
    rw [hbest]
    rfl
  | inr hbest =>
    obtain ⟨target, ht, hlegal, hbest⟩ := hbest
    refine .inr ⟨target, ht, hlegal, hbest, ?_⟩
    unfold improved
    rw [hbest]
    rfl

omit [Scalar α] in
theorem checkBounds_eq_ok :
    model.checkBounds graph bounds = .ok ()
      ↔
    bounds.HasShape model.numParts graph.dimensions.vertex := by
  unfold checkBounds
  rw [Balance.hasShape_iff]
  split
  . next h => simp only [reduceCtorEq, h, not_true_eq_false]
  . next h => simp only [h, not_false_eq_true]

end CostModel

namespace PartitionState.InStep

open CostModel

variable {model : CostModel α} {graph : Hypergraph α} {bounds : Balance α} (hg : graph.WellFormed)
  (hb : bounds.HasShape model.numParts graph.dimensions.vertex)

include hg

theorem improved {pass : Pass α} (h : pass.state.InStep model graph) (e : Nat) :
    (model.improved graph bounds pass e).state.InStep model graph := by
  cases improved_cases pass e with
  | inl heq =>
    rw [heq]
    exact h
  | inr hmove =>
    obtain ⟨target, ht, _, _, heq⟩ := hmove
    rw [heq]
    exact h.committed hg ht

theorem visited_induction {P : Pass α → Prop} {maxMoves : Nat} {es : List Nat}
    (hstop : ∀ pass e, P pass → P { pass with visited := pass.visited + 1, stoppedAt := some e })
    (himproved : ∀ pass : Pass α, ∀ e ∈ es, pass.state.InStep model graph →
      P pass → P (model.improved graph bounds pass e))
    {pass : Pass α} (h : pass.state.InStep model graph) (hp : P pass) :
    (model.visited graph bounds maxMoves es pass).state.InStep model graph ∧
      P (model.visited graph bounds maxMoves es pass) := by
  induction es generalizing pass with
  | nil => exact ⟨h, hp⟩
  | cons e es ih =>
    -- The induction hypothesis speaks of the hyperedges to come only.
    have hrest : ∀ pass : Pass α, ∀ e ∈ es, pass.state.InStep model graph →
        P pass → P (model.improved graph bounds pass e) := by
      intro pass e he
      exact himproved pass e (List.mem_cons_of_mem _ he)
    unfold CostModel.visited
    split
    . split
      . exact ⟨h, hstop pass e hp⟩
      . exact ih hrest (h.improved hg e) (himproved pass e List.mem_cons_self h hp)
    . exact ih hrest h hp

variable (bounds) in
theorem passed {state : PartitionState α} (h : state.InStep model graph) (limits : RefineLimits) :
    (model.passed graph bounds limits state).state.InStep model graph := by
  apply And.left
  apply visited_induction hg (P := fun _ => True)
  . intro _ _ _
    trivial
  . intro _ _ _ _ _
    trivial
  . exact h
  . trivial

include hb

theorem improve_eq {pass : Pass α} (h : pass.state.InStep model graph) {e : Nat}
    (he : e < graph.numHyperedges) :
    model.improve graph bounds pass e = .ok (model.improved graph bounds pass e) := by
  unfold CostModel.improve Counting.improve CostModel.improved
  rw [CostModel.unbounded_commit]
  rw [h.bestMove?_eq hg hb he, Fault.liftM_some, ok_bind]
  cases model.bestMove_cases graph bounds pass.state e with
  | inl hbest =>
    rw [hbest]
    rfl
  | inr hbest =>
    obtain ⟨target, ht, _, hbest⟩ := hbest
    rw [hbest, h.commit_eq hg ht he rfl]
    rfl

theorem visit_eq {maxMoves : Nat} {es : List Nat} (hes : ∀ e ∈ es, e < graph.numHyperedges)
    {pass : Pass α} (h : pass.state.InStep model graph) :
    model.visit graph maxMoves bounds es pass
      =
    .ok (model.visited graph bounds maxMoves es pass) := by
  induction es generalizing pass with
  | nil => rfl
  | cons e es ih =>
    rw [List.forall_mem_cons] at hes
    obtain ⟨degrees, hdegrees, hspanned⟩ := h.spanned_netDegrees hg hes.left
    unfold CostModel.visited
    rw [CostModel.visit_cons]
    rw [hdegrees, Fault.liftM_some, ok_bind]
    by_cases hcut : graph.cut pass.state.solution.blockOf e = true
    . have : ¬degrees.spanned ≤ 1 := by
        have := hspanned.mpr hcut
        omega
      rw [if_neg this, if_pos hcut]
      split
      . rfl
      . rw [h.improve_eq hg hb hes.left, ok_bind]
        exact ih hes.right (h.improved hg e)
    . have : degrees.spanned ≤ 1 := by
        have := mt hspanned.mp hcut
        omega
      rw [if_pos this, if_neg hcut]
      exact ih hes.right h

theorem pass_of_checked {state : PartitionState α} (h : state.InStep model graph)
    {limits : RefineLimits}
    (hcheck : limits.checkConsistency = true → state.checkConsistency model graph = .ok ()) :
    model.pass graph limits bounds state = .ok (model.passed graph bounds limits state) := by
  have hvisit : model.visit graph limits.maxMoves bounds (List.range graph.numHyperedges)
      ⟨state, 0, 0, [], none⟩ = .ok (model.passed graph bounds limits state) := by
    apply visit_eq hg hb
    . intro e he
      exact List.mem_range.mp he
    . exact h
  unfold CostModel.pass Counting.pass
  rw [CostModel.unbounded_visit]
  rw [checkBounds_eq_ok.mpr hb, Failure.liftM_precondition_ok, ok_bind]
  split
  . next hlimits => rw [hcheck hlimits, ok_bind, hvisit, Failure.liftM_ok]
  . rw [h.checkShape, ok_bind, hvisit, Failure.liftM_ok]

omit hb in
variable (bounds) in
theorem pass_cases {state : PartitionState α} (h : state.InStep model graph)
    (limits : RefineLimits) :
    model.pass graph limits bounds state = .ok (model.passed graph bounds limits state)
      ∨
    ∃ cause, model.pass graph limits bounds state = .error (.precondition cause) := by
  cases hbounds : model.checkBounds graph bounds with
  | error cause =>
    unfold CostModel.pass Counting.pass
    rw [CostModel.unbounded_visit]
    rw [hbounds]
    exact .inr ⟨cause, rfl⟩
  | ok _ =>
    have hb := checkBounds_eq_ok.mp hbounds
    by_cases hcheck : limits.checkConsistency = true → state.checkConsistency model graph = .ok ()
    . exact .inl (h.pass_of_checked hg hb hcheck)
    -- Rounding can take the balance further away from the truth than the check admits.
    . obtain ⟨hlimits, hfailed⟩ := Classical.not_imp.mp hcheck
      cases h.checkConsistency_cases hg with
      | inl hok => exact absurd hok hfailed
      | inr herror =>
        obtain ⟨cause, herror⟩ := herror
        unfold CostModel.pass Counting.pass
        rw [CostModel.unbounded_visit]
        rw [hbounds, Failure.liftM_precondition_ok, ok_bind, if_pos hlimits, herror]
        exact .inr ⟨cause, rfl⟩

end PartitionState.InStep

theorem PartitionState.InStep.pass_eq {α : Type} [ExactScalar α] {model : CostModel α}
    {graph : Hypergraph α} {bounds : Balance α} {state : PartitionState α}
    (h : state.InStep model graph) (hg : graph.WellFormed)
    (hb : bounds.HasShape model.numParts graph.dimensions.vertex) (limits : RefineLimits) :
    model.pass graph limits bounds state = .ok (model.passed graph bounds limits state) := by
  apply h.pass_of_checked hg hb
  intro _
  exact h.checkConsistency hg

end CircuitPartition
