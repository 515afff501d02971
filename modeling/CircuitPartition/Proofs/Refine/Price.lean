import CircuitPartition.Proofs.Refine.Commit
import CircuitPartition.Refine.Pass

/-!
What a move is priced at, whether it is legal, and which one is the best, as plain functions of a
state that is in step with its solution.
-/

namespace CircuitPartition

variable {α : Type} [Scalar α]

namespace CostModel

variable (model : CostModel α) (graph : Hypergraph α)

def cutChange (before after : Nat → Nat) (gain : α) (e : Nat) : α :=
  if graph.cut before e = graph.cut after e then
    gain
  else
    gain + if graph.cut before e then model.hyperedgeCost graph e else -model.hyperedgeCost graph e

def walkChange (before after : Nat → Nat) (gain : α) (p : Nat) : α :=
  gain + (model.walkCost graph before p - model.walkCost graph after p)

def price (solution : Solution) (e target : Nat) : α :=
  let moving := graph.movers solution e target
  let before := solution.blockOf
  let after := Solution.blockOf (solution.gather (graph.pins e) target)
  (graph.touchedPaths moving).foldl (model.walkChange graph before after)
    ((graph.touchedHyperedges moving).foldl (model.cutChange graph before after) 0)

def candidate (solution : Solution) (e target : Nat) : Gain α :=
  ⟨e, some target, model.price graph solution e target, model.pinNormSum graph e⟩

def incoming (solution : Solution) (e target : Nat) : List α :=
  ((graph.movers solution e target).map graph.weight).foldl addOnto
    (List.replicate graph.dimensions.vertex 0)

def legal (bounds : Balance α) (state : PartitionState α) (e target : Nat) : Bool :=
  fits (state.blockBalance[target]?.getD []) (incoming graph state.solution e target)
    (bounds[target]?.getD [])

def considered (bounds : Balance α) (state : PartitionState α) (e : Nat) (best : Gain α)
    (target : Nat) : Gain α :=
  if legal graph bounds state e target then
    if (model.candidate graph state.solution e target).isBetter best then
      model.candidate graph state.solution e target
    else
      best
  else
    best

def bestMove (bounds : Balance α) (state : PartitionState α) (e : Nat) : Gain α :=
  (List.range model.numParts).foldl (model.considered graph bounds state e)
    (.baseline e (model.pinNormSum graph e))

variable {model graph} {bounds : Balance α} {state : PartitionState α} {e : Nat}

theorem foldl_considered_induction {P : Gain α → Prop} {targets : List Nat}
    (hstep : ∀ best, ∀ target ∈ targets, legal graph bounds state e target = true →
      (model.candidate graph state.solution e target).isBetter best = true → P best →
      P (model.candidate graph state.solution e target))
    {best : Gain α} (h : P best) :
    P (targets.foldl (model.considered graph bounds state e) best) := by
  induction targets generalizing best with
  | nil => exact h
  | cons target targets ih =>
    rw [List.foldl_cons]
    apply ih
    . intro best target htarget
      exact hstep best target (List.mem_cons_of_mem _ htarget)
    . unfold considered
      split
      . next hlegal =>
        split
        . next hbetter => exact hstep best target List.mem_cons_self hlegal hbetter h
        . exact h
      . exact h

theorem bestMove_induction {P : Gain α → Prop}
    (hbaseline : P (.baseline e (model.pinNormSum graph e)))
    (hstep : ∀ best target, target < model.numParts → legal graph bounds state e target = true →
      (model.candidate graph state.solution e target).isBetter best = true → P best →
      P (model.candidate graph state.solution e target)) :
    P (model.bestMove graph bounds state e) := by
  apply foldl_considered_induction
  . intro best target htarget
    exact hstep best target (List.mem_range.mp htarget)
  . exact hbaseline

variable (model graph bounds state e) in
theorem bestMove_cases :
    model.bestMove graph bounds state e = .baseline e (model.pinNormSum graph e)
      ∨
    ∃ target < model.numParts, legal graph bounds state e target = true ∧
      model.bestMove graph bounds state e = model.candidate graph state.solution e target := by
  apply bestMove_induction
    (P := fun best => best = .baseline e (model.pinNormSum graph e) ∨
      ∃ target < model.numParts, legal graph bounds state e target = true ∧
        best = model.candidate graph state.solution e target)
  . exact .inl rfl
  . intro best target htarget hlegal _ _
    exact .inr ⟨target, htarget, hlegal, rfl⟩

end CostModel

namespace CostModel.Admits

variable {model : CostModel α} {graph : Hypergraph α} (hg : graph.WellFormed) {e target : Nat}

include hg

section Tentative

variable {solution : Solution} (h : model.Admits graph solution)

include h

omit [Scalar α] in
theorem tentative_eq {v : Nat} (hv : v < graph.numVertices) :
    CostModel.tentative solution (graph.pins e) target v
      =
    some (Solution.blockOf (solution.gather (graph.pins e) target) v) := by
  unfold CostModel.tentative
  rw [h.blockOf_gather_pins hg]
  by_cases hpin : v ∈ graph.pins e
  . simp [hpin]
  . simp [hpin, h.getElem?_of_lt hv]

omit [Scalar α] in
theorem isCut?_tentative {e' : Nat} (he' : e' < graph.numHyperedges) :
    graph.isCut? (CostModel.tentative solution (graph.pins e) target) e'
      =
    some (graph.cut (Solution.blockOf (solution.gather (graph.pins e) target)) e') := by
  apply Hypergraph.isCut?_of_found he'
  intro v hv
  exact h.tentative_eq hg (hg.lt_of_mem hv)

theorem pathCostWith?_tentative (ht : target < model.numParts) {p : Nat}
    (hp : p < graph.numPaths) :
    model.pathCostWith? graph (CostModel.tentative solution (graph.pins e) target) p
      =
    some (model.walkCost graph (Solution.blockOf (solution.gather (graph.pins e) target)) p) := by
  apply CostModel.pathCostWith?_of_found hp
  . intro v hv
    exact h.tentative_eq hg (hg.lt_of_mem_walk hv)
  . intro v hv
    exact (h.gather (graph.pins e) ht).blockOf_lt (hg.lt_of_mem_walk hv)

end Tentative

theorem isLegal?_eq {state : PartitionState α} (h : model.Admits graph state.solution)
    (hshape : state.blockBalance.HasShape model.numParts graph.dimensions.vertex)
    {bounds : Balance α} (hb : bounds.HasShape model.numParts graph.dimensions.vertex)
    (he : e < graph.numHyperedges) (ht : target < model.numParts) :
    CostModel.isLegal? graph bounds state e target
      =
    some (CostModel.legal graph bounds state e target) := by
  obtain ⟨row, hrow, _⟩ := hshape.getElem?_of_lt ht
  obtain ⟨bound, hbound, _⟩ := hb.getElem?_of_lt ht
  have hweights : (graph.movers state.solution e target).mapM (fun v => do
      return (← graph.vertex? v).weight)
      = some ((graph.movers state.solution e target).map graph.weight) := by
    apply mapM_of_found
    intro v hv
    obtain ⟨x, _, hx, hweight⟩ := Hypergraph.vertex?_of_lt (hg.lt_of_mem_movers v hv)
    rw [hx, hweight]
    rfl
  unfold CostModel.isLegal? CostModel.legal CostModel.incoming
  rw [h.movers?_eq hg he, some_bind, hweights, some_bind, hrow, hbound]
  rfl

end CostModel.Admits

namespace PartitionState.InStep

variable {model : CostModel α} {graph : Hypergraph α} {state : PartitionState α}
  (h : state.InStep model graph) (hg : graph.WellFormed) {e target : Nat}

include h hg

theorem spanned_netDegrees {e' : Nat} (he' : e' < graph.numHyperedges) :
    ∃ degrees, state.netDegrees[e']? = some degrees ∧
      (1 < degrees.spanned ↔ graph.cut state.solution.blockOf e' = true) := by
  refine ⟨.count model.numParts ((graph.pins e').map state.solution.blockOf), ?_, ?_⟩
  . rw [h.netDegrees_eq, CostModel.getElem?_degreeTable he']
  . exact Degrees.one_lt_spanned_count (h.admits.blockOf_lt_of_mem_pins hg)

theorem cutGain?_eq (gain : α) {e' : Nat} (he' : e' < graph.numHyperedges) :
    model.cutGain? graph state (CostModel.tentative state.solution (graph.pins e) target) gain e'
      =
    some (model.cutChange graph state.solution.blockOf
      (Solution.blockOf (state.solution.gather (graph.pins e) target)) gain e') := by
  obtain ⟨degrees, hdegrees, hspanned⟩ := h.spanned_netDegrees hg he'
  have hbefore : decide (1 < degrees.spanned) = graph.cut state.solution.blockOf e' := by
    rw [Bool.eq_iff_iff, decide_eq_true_eq]
    exact hspanned
  -- Degrees tell whether the hyperedge is cut now, its pins whether it would be.
  unfold CostModel.cutGain? CostModel.cutChange
  rw [hdegrees, some_bind, h.admits.isCut?_tentative hg he', some_bind, hbefore]
  split
  . rfl
  . rw [hg.hyperedgeCost?_of_lt he']
    rfl

theorem pathGain?_eq (ht : target < model.numParts) (gain : α) {p : Nat} (hp : p < graph.numPaths) :
    model.pathGain? graph state (CostModel.tentative state.solution (graph.pins e) target) gain p
      =
    some (model.walkChange graph state.solution.blockOf
      (Solution.blockOf (state.solution.gather (graph.pins e) target)) gain p) := by
  unfold CostModel.pathGain? CostModel.walkChange
  rw [h.getElem?_pathCosts hp, h.admits.pathCostWith?_tentative hg ht hp]
  rfl

theorem gain?_eq (he : e < graph.numHyperedges) (ht : target < model.numParts) :
    model.gain? graph state e target = some (model.candidate graph state.solution e target) := by
  obtain ⟨hyperedge, _, hsome, hpins⟩ := Hypergraph.hyperedge?_of_lt he
  have hmovers : ∀ v ∈ graph.movers state.solution e target, v < graph.numVertices :=
    hg.lt_of_mem_movers
  unfold CostModel.gain?
  rw [hsome, some_bind, ← hpins, h.admits.movers?_eq hg he, some_bind,
    hg.touchedHyperedges?_eq hmovers, some_bind, foldlM_of_found, some_bind,
    hg.touchedPaths?_eq hmovers, some_bind, foldlM_of_found, some_bind,
    hg.pinNormSum?_of_lt he]
  . rfl
  . intro gain p hp
    exact h.pathGain?_eq hg ht gain (hg.lt_of_mem_touchedPaths hmovers hp)
  . intro gain e' he'
    exact h.cutGain?_eq hg gain (hg.lt_of_mem_touchedHyperedges hmovers he')

variable {bounds : Balance α} (hb : bounds.HasShape model.numParts graph.dimensions.vertex)

include hb

theorem bestMove?_eq (he : e < graph.numHyperedges) :
    model.bestMove? graph bounds state e = some (model.bestMove graph bounds state e) := by
  unfold CostModel.bestMove? CostModel.bestMove
  rw [hg.pinNormSum?_of_lt he, some_bind]
  apply foldlM_of_found
  intro best target htarget
  rw [List.mem_range] at htarget
  unfold CostModel.considerTarget? CostModel.considered
  rw [h.admits.isLegal?_eq hg h.hasShape hb he htarget, some_bind, h.gain?_eq hg he htarget]
  cases CostModel.legal graph bounds state e target with
  | false => rfl
  | true =>
    simp only [Bool.not_true, Bool.false_eq_true, ↓reduceIte, some_bind]
    split
    . rfl
    . rfl

end PartitionState.InStep

end CircuitPartition
