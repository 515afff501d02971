import CircuitPartition.Proofs.Refine.Price
import Mathlib.Algebra.BigOperators.Group.Finset.Piecewise
import Mathlib.Algebra.BigOperators.Group.Finset.Sigma
import Mathlib.Tactic.Abel

/-!
The cost of a solution as a sum over all hyperedges and paths. A move changes only the terms that it
is priced by, so with exact arithmetic its price is by how much the cost falls.
-/

namespace CircuitPartition

open Finset

variable {α : Type} [ExactScalar α]

theorem sum_map_eq_sum_range {ns : List Nat} {n : Nat} {f : Nat → α} (hnodup : ns.Nodup)
    (hlt : ∀ i ∈ ns, i < n) (hzero : ∀ i < n, i ∉ ns → f i = 0) :
    (ns.map f).sum = ∑ i ∈ range n, f i := by
  rw [← List.sum_toFinset _ hnodup]
  apply sum_subset
  . intro i hi
    rw [List.mem_toFinset] at hi
    exact mem_range.mpr (hlt i hi)
  . intro i hi hmem
    rw [List.mem_toFinset] at hmem
    exact hzero i (mem_range.mp hi) hmem

theorem sum_map_range (n : Nat) (f : Nat → α) :
    ((List.range n).map f).sum = ∑ i ∈ range n, f i := by
  apply sum_map_eq_sum_range List.nodup_range
  . intro i hi
    exact List.mem_range.mp hi
  . intro i hi hmem
    exact absurd (List.mem_range.mpr hi) hmem

namespace CostModel

variable (model : CostModel α) (graph : Hypergraph α)

def cutCost (f : Nat → Nat) (e : Nat) : α :=
  if graph.cut f e then model.hyperedgeCost graph e else 0

def cost (solution : Solution) : α :=
  (model.scoreTable graph solution).cost

variable {model graph}

theorem cost_eq (solution : Solution) :
    model.cost graph solution
      =
    ∑ e ∈ range graph.numHyperedges, model.cutCost graph solution.blockOf e
      + ∑ p ∈ range graph.numPaths, model.walkCost graph solution.blockOf p := by
  have hcut : (((List.range graph.numHyperedges).filter (graph.cut solution.blockOf)).map
      (model.hyperedgeCost graph)).sum
      = ∑ e ∈ range graph.numHyperedges, model.cutCost graph solution.blockOf e := by
    have hrange : (List.range graph.numHyperedges).toFinset = range graph.numHyperedges := by
      ext e
      simp
    rw [← List.sum_toFinset _ (List.nodup_range.filter _), List.toFinset_filter, hrange, sum_filter]
    rfl
  unfold cost Score.cost scoreTable costTable
  dsimp only
  rw [ExactScalar.sum_eq_sum, ExactScalar.sum_eq_sum, hcut, sum_map_range]

theorem cutChange_eq (before after : Nat → Nat) (gain : α) (e : Nat) :
    model.cutChange graph before after gain e
      =
    gain + (model.cutCost graph before e - model.cutCost graph after e) := by
  unfold cutChange cutCost
  cases graph.cut before e with
  | false =>
    cases graph.cut after e with
    | false => simp
    | true => simp
  | true =>
    cases graph.cut after e with
    | false => simp
    | true => simp

theorem foldl_cutChange (before after : Nat → Nat) (es : List Nat) (gain : α) :
    es.foldl (model.cutChange graph before after) gain
      =
    gain + (es.map fun e => model.cutCost graph before e - model.cutCost graph after e).sum := by
  induction es generalizing gain with
  | nil => simp
  | cons e es ih => rw [List.foldl_cons, ih, cutChange_eq, List.map_cons, List.sum_cons, add_assoc]

theorem foldl_walkChange (before after : Nat → Nat) (ps : List Nat) (gain : α) :
    ps.foldl (model.walkChange graph before after) gain
      =
    gain + (ps.map fun p => model.walkCost graph before p - model.walkCost graph after p).sum := by
  induction ps generalizing gain with
  | nil => simp
  | cons p ps ih =>
    rw [List.foldl_cons, ih, List.map_cons, List.sum_cons, ← add_assoc]
    rfl

theorem Admits.price_eq {solution : Solution} (h : model.Admits graph solution)
    (hg : graph.WellFormed) (e target : Nat) :
    model.price graph solution e target
      =
    model.cost graph solution - model.cost graph (solution.gather (graph.pins e) target) := by
  have hmovers : ∀ v ∈ graph.movers solution e target, v < graph.numVertices := hg.lt_of_mem_movers
  unfold price
  dsimp only
  rw [foldl_walkChange, foldl_cutChange, zero_add]
  -- Hyperedges and paths that were not looked at add as much to the cost as before.
  rw [sum_map_eq_sum_range (n := graph.numHyperedges), sum_map_eq_sum_range (n := graph.numPaths)]
  . rw [sum_sub_distrib, sum_sub_distrib, cost_eq, cost_eq]
    abel
  . apply (IndexSet.pairwise_ofList _).imp
    omega
  . intro p hp
    exact hg.lt_of_mem_touchedPaths hmovers hp
  . intro p _ hmem
    rw [h.walkCost_gather hg hmem, sub_self]
  . apply (IndexSet.pairwise_ofList _).imp
    omega
  . intro e' he'
    exact hg.lt_of_mem_touchedHyperedges hmovers he'
  . intro e' _ hmem
    unfold cutCost
    rw [h.cut_gather hg hmem, sub_self]

end CostModel

end CircuitPartition
