import CircuitPartition.Proofs.Graph.Reachable
import CircuitPartition.Proofs.Refine.Legality
import CircuitPartition.Proofs.Refine.Locality
import CircuitPartition.Proofs.Refine.Pass

/-!
Greedy refinement without any table: a pass that computes balance and cost of every solution it
thinks of from scratch. With exact arithmetic a pass on a maintained state does the same.
-/

namespace CircuitPartition

structure PlainPass (α : Type) where
  solution : Solution
  counted : Nat
  gain : α
  moves : List (Gain α)

def Hypergraph.divided? {α : Type} (graph : Hypergraph α) (solution : Solution) (e : Nat) :
    Option Bool := do
  return apart (← (← graph.hyperedge? e).pins.mapM (solution[·]?))

namespace CostModel

variable {α : Type} [Scalar α] (model : CostModel α) (graph : Hypergraph α)

def tryPlain (bounds : Balance α) (solution : Solution) (e : Nat) (best : Gain α) (target : Nat) :
    Except (Failure α) (Gain α) := do
  let moved := solution.gather (← graph.hyperedge? e).pins target
  let balance ← model.blockBalance graph moved
  if !withinBound (← balance[target]?) (← bounds[target]?) then
    return best
  let before ← model.score graph solution
  let after ← model.score graph moved
  let move := ⟨e, some target, before.cost - after.cost, ← model.pinNormSum? graph e⟩
  return if move.isBetter best then move else best

def bestPlain (bounds : Balance α) (solution : Solution) (e : Nat) :
    Except (Failure α) (Gain α) := do
  (List.range model.numParts).foldlM (model.tryPlain graph bounds solution e)
    (.baseline e (← model.pinNormSum? graph e))

def adopt (pass : PlainPass α) (best : Gain α) : Except (Failure α) (PlainPass α) := do
  match best.target with
  | none => return { pass with counted := pass.counted + 1 }
  | some target =>
    return {
      solution := pass.solution.gather (← graph.hyperedge? best.hyperedge).pins target
      counted := pass.counted + 1
      gain := pass.gain + best.gain
      moves := best :: pass.moves }

def visitPlain (maxMoves : Nat) (bounds : Balance α) :
    List Nat → PlainPass α → Except (Failure α) (PlainPass α)
  | [], pass => return pass
  | e :: es, pass => do
    if !(← graph.divided? pass.solution e) then
      visitPlain maxMoves bounds es pass
    else if maxMoves ≤ pass.counted + 1 then
      return { pass with counted := pass.counted + 1 }
    else
      visitPlain maxMoves bounds es
        (← adopt graph pass (← model.bestPlain graph bounds pass.solution e))

def passPlain (maxMoves : Nat) (bounds : Balance α) (solution : Solution) :
    Except (Failure α) (PlainPass α) :=
  model.visitPlain graph maxMoves bounds (List.range graph.numHyperedges) ⟨solution, 0, 0, []⟩

end CostModel

def Pass.plain {α : Type} (pass : Pass α) : PlainPass α :=
  ⟨pass.state.solution, pass.visited, pass.gain, pass.moves⟩

variable {α : Type}

theorem foldlM_of_ok {β ε : Type} {f : β → Nat → Except ε β} {g : β → Nat → β} {ns : List Nat}
    (h : ∀ b, ∀ n ∈ ns, f b n = .ok (g b n)) (b : β) : ns.foldlM f b = .ok (ns.foldl g b) := by
  induction ns generalizing b with
  | nil => rfl
  | cons n ns ih =>
    rw [List.foldlM_cons, h b n List.mem_cons_self, ok_bind, List.foldl_cons]
    apply ih
    intro b n hn
    exact h b n (List.mem_cons_of_mem _ hn)

theorem CostModel.Admits.divided?_eq {model : CostModel α} {graph : Hypergraph α}
    {solution : Solution} (h : model.Admits graph solution) (hg : graph.WellFormed) {e : Nat}
    (he : e < graph.numHyperedges) :
    graph.divided? solution e = some (graph.cut solution.blockOf e) := by
  obtain ⟨hyperedge, _, hsome, hpins⟩ := Hypergraph.hyperedge?_of_lt he
  unfold Hypergraph.divided? Hypergraph.cut
  rw [hsome, some_bind, ← hpins, mapM_of_found (h.found_of_mem_pins hg)]
  rfl

variable [ExactScalar α] {model : CostModel α} {graph : Hypergraph α} {bounds : Balance α}

namespace PartitionState.InStep

open CostModel

variable {state : PartitionState α} (h : state.InStep model graph) (hg : graph.WellFormed)
  (hb : bounds.HasShape model.numParts graph.dimensions.vertex) {e : Nat}
  (he : e < graph.numHyperedges)

include h hg hb he

theorem tryPlain_eq {target : Nat} (ht : target < model.numParts) (best : Gain α) :
    model.tryPlain graph bounds state.solution e best target
      =
    .ok (model.considered graph bounds state e best target) := by
  obtain ⟨hyperedge, _, hsome, hpins⟩ := Hypergraph.hyperedge?_of_lt he
  have hmoved := h.admits.gather (graph.pins e) ht
  have hcommitted := h.committed hg (e := e) ht
  have hbalance : model.balanceTable graph (state.solution.gather (graph.pins e) target)
      = (state.committed model graph e target).blockBalance := by
    rw [hcommitted.blockBalance_eq, h.solution_committed hg ht]
  obtain ⟨row, hrow, _⟩ := hcommitted.hasShape.getElem?_of_lt ht
  obtain ⟨bound, hbound, _⟩ := hb.getElem?_of_lt ht
  -- The balance from scratch is the one that committing the move would leave.
  have hlegal := h.legal_eq hg bounds e ht
  rw [hrow, hbound, Option.getD_some, Option.getD_some] at hlegal
  unfold tryPlain considered candidate
  rw [hsome, Failure.liftM_some, ok_bind, ← hpins]
  dsimp only
  rw [hmoved.blockBalance hg, ok_bind, hbalance, hrow, Failure.liftM_some, ok_bind, hbound,
    Failure.liftM_some, ok_bind, ← hlegal, h.admits.score hg, hmoved.score hg,
    hg.pinNormSum?_of_lt he, h.admits.price_eq hg]
  cases legal graph bounds state e target with
  | false => rfl
  | true => rfl

theorem bestPlain_eq :
    model.bestPlain graph bounds state.solution e = .ok (model.bestMove graph bounds state e) := by
  unfold bestPlain bestMove
  rw [hg.pinNormSum?_of_lt he, Failure.liftM_some, ok_bind]
  apply foldlM_of_ok
  intro best target htarget
  exact h.tryPlain_eq hg hb he (List.mem_range.mp htarget) best

end PartitionState.InStep

section Steps

variable (hg : graph.WellFormed) (hb : bounds.HasShape model.numParts graph.dimensions.vertex)

include hg

theorem adopt_eq {pass : Pass α} (h : pass.state.InStep model graph) {e : Nat}
    (he : e < graph.numHyperedges) :
    CostModel.adopt graph pass.plain (model.bestMove graph bounds pass.state e)
      =
    .ok (model.improved graph bounds pass e).plain := by
  obtain ⟨hyperedge, _, hsome, hpins⟩ := Hypergraph.hyperedge?_of_lt he
  unfold CostModel.adopt CostModel.improved Pass.plain
  cases model.bestMove_cases graph bounds pass.state e with
  | inl hbest =>
    rw [hbest]
    simp [Gain.baseline]
  | inr hbest =>
    obtain ⟨target, ht, _, hbest⟩ := hbest
    rw [hbest]
    unfold CostModel.candidate
    dsimp only
    rw [hsome, Failure.liftM_some, ok_bind, ← hpins, h.solution_committed hg ht]
    rfl

include hb

theorem visitPlain_eq {maxMoves : Nat} {es : List Nat} (hes : ∀ e ∈ es, e < graph.numHyperedges)
    (pass : Pass α) (h : pass.state.InStep model graph) :
    model.visitPlain graph maxMoves bounds es pass.plain
      =
    .ok (model.visited graph bounds maxMoves es pass).plain := by
  induction es generalizing pass with
  | nil => rfl
  | cons e es ih =>
    rw [List.forall_mem_cons] at hes
    have hbest : model.bestPlain graph bounds pass.plain.solution e
        = .ok (model.bestMove graph bounds pass.state e) := h.bestPlain_eq hg hb hes.left
    have hdivided : graph.divided? pass.plain.solution e
        = some (graph.cut pass.state.solution.blockOf e) := h.admits.divided?_eq hg hes.left
    unfold CostModel.visitPlain CostModel.visited
    rw [hdivided, Failure.liftM_some, ok_bind]
    cases graph.cut pass.state.solution.blockOf e with
    | false => exact ih hes.right pass h
    | true =>
      simp only [Bool.not_true, Bool.false_eq_true, ↓reduceIte]
      have hcounted : pass.plain.counted = pass.visited := rfl
      rw [hbest, ok_bind, adopt_eq hg h hes.left, ok_bind, ih hes.right _ (h.improved hg e),
        hcounted]
      by_cases hstop : maxMoves ≤ pass.visited + 1
      . rw [if_pos hstop, if_pos hstop]
        rfl
      . rw [if_neg hstop, if_neg hstop]

end Steps

theorem pass_eq_passPlain (limits : RefineLimits) {state : PartitionState α}
    (hgraph : graph.Reachable)
    (htruth : PartitionState.ofSolution model graph state.solution = .ok state)
    (hbounds : bounds.HasShape model.numParts graph.dimensions.vertex) :
    ∃ pass plain, model.pass graph limits bounds state = .ok pass ∧
      model.passPlain graph limits.maxMoves bounds state.solution = .ok plain ∧
      plain.moves = pass.moves ∧ plain.solution = pass.state.solution ∧ plain.gain = pass.gain ∧
      plain.counted = pass.visited := by
  have hg := hgraph.wellFormed
  have h := (PartitionState.ofSolution_eq_ok_iff hg).mp htruth
  have hes : ∀ e ∈ List.range graph.numHyperedges, e < graph.numHyperedges := by
    intro e he
    exact List.mem_range.mp he
  have hplain : model.passPlain graph limits.maxMoves bounds state.solution
      = .ok (model.passed graph bounds limits state).plain :=
    visitPlain_eq hg hbounds hes ⟨state, 0, 0, [], none⟩ h
  exact ⟨_, _, h.pass_eq hg hbounds limits, hplain, rfl, rfl, rfl, rfl⟩

theorem pass_eq_passPlain_chain :
    ∃ pass plain,
      CostModel.standard.pass Hypergraph.chain .standard #[[4], [4]] .chain = .ok pass ∧
      CostModel.standard.passPlain Hypergraph.chain 50 #[[4], [4]] #[0, 1, 0] = .ok plain ∧
      plain.moves = pass.moves ∧ plain.solution = pass.state.solution ∧ plain.gain = pass.gain ∧
      plain.counted = pass.visited :=
  pass_eq_passPlain .standard Hypergraph.reachable_chain
    PartitionState.ofSolution_chain (⟨rfl, by simp [Hypergraph.chain]⟩)

end CircuitPartition
