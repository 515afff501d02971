import CircuitPartition.Proofs.Partition.Tracks
import CircuitPartition.Refine.Pass
import Mathlib.Algebra.BigOperators.Group.Finset.Basic

/-!
Cut hyperedges, as a scan of the pins finds them and as the degrees tell. The two agree for every
solution, so that a pass, which goes by the degrees, passes over just the hyperedges that are not
listed as cut.
-/

namespace CircuitPartition

namespace Degrees

variable {numParts : Nat} {blocks : List Nat}

theorem sum_count (h : ∀ b ∈ blocks, b < numParts) :
    (count numParts blocks).sum = blocks.length := by
  have hlisted : ∀ b ∈ (blocks : Multiset Nat), b ∈ Finset.range numParts := by
    intro b hb
    exact Finset.mem_range.mpr (h b hb)
  calc
    (count numParts blocks).sum = ((List.range numParts).map blocks.count).sum := by
      unfold count
      rw [← Array.sum_toList, Array.toList_map, Array.toList_range]
    _ = ∑ b ∈ Finset.range numParts, blocks.count b := rfl
    _ = blocks.length := by simpa using Multiset.sum_count_eq_card hlisted

theorem getElem?_count_map {vertices : List Nat} {f : Nat → Nat} {block : Nat}
    (h : block < numParts) :
    (count numParts (vertices.map f))[block]? = some (vertices.countP (f · = block)) := by
  rw [getElem?_count h, List.count_eq_countP, List.countP_map]
  rfl

end Degrees

variable {α : Type} {graph : Hypergraph α} {model : CostModel α} {solution : Solution}

theorem Hypergraph.cut_iff {f : Nat → Nat} {e : Nat} :
    graph.cut f e = true ↔ ∃ u ∈ graph.pins e, ∃ v ∈ graph.pins e, f u ≠ f v := by
  unfold cut
  rw [apart_iff]
  simp

namespace CostModel

variable [Scalar α]

theorem cuts_agree (hgraph : graph.Reachable) (h : model.Admits graph solution) :
    ∃ cut rows, model.cutHyperedges graph solution = .ok cut ∧
      model.netDegrees graph solution = .ok rows ∧ cut.Pairwise (· < ·) ∧
      (∀ e ∈ cut, e < graph.numHyperedges) ∧ rows.size = graph.numHyperedges ∧
      ∀ e < graph.numHyperedges, ∃ row, rows[e]? = some row ∧ row.size = model.numParts ∧
        (∀ block < model.numParts,
          row[block]? = some ((graph.pins e).countP (solution.blockOf · = block))) ∧
        row.sum = (graph.pins e).length ∧ (e ∈ cut ↔ 1 < row.spanned) ∧
        (e ∈ cut ↔ ∃ u ∈ graph.pins e, ∃ v ∈ graph.pins e,
          solution.blockOf u ≠ solution.blockOf v) ∧
        ∀ maxMoves bounds pass es, pass.state.netDegrees = rows →
          model.visit graph maxMoves bounds (e :: es) pass
            =
          if e ∉ cut then
            model.visit graph maxMoves bounds es pass
          else if maxMoves ≤ pass.visited + 1 then
            .ok { pass with visited := pass.visited + 1, stoppedAt := some e }
          else
            model.improve graph bounds pass e >>= model.visit graph maxMoves bounds es := by
  have hg := hgraph.wellFormed
  refine ⟨_, _, h.cutHyperedges hg, h.netDegrees hg, List.pairwise_lt_range.filter _, ?_, ?_, ?_⟩
  . intro e he
    exact List.mem_range.mp (List.mem_of_mem_filter he)
  . exact Array.size_map
  . intro e he
    have hblocks := h.blockOf_lt_of_mem_pins hg (e := e)
    have hrow : (model.degreeTable graph solution)[e]? = _ := getElem?_degreeTable he
    have hmem : e ∈ (List.range graph.numHyperedges).filter (graph.cut solution.blockOf)
        ↔ graph.cut solution.blockOf e = true := by
      simp [he]
    have hspanned := hmem.trans (Degrees.one_lt_spanned_count hblocks).symm
    refine ⟨_, hrow, Degrees.size_count, fun _ => Degrees.getElem?_count_map, ?_, hspanned,
      hmem.trans Hypergraph.cut_iff, ?_⟩
    . rw [Degrees.sum_count hblocks, List.length_map]
    . intro maxMoves bounds pass es hrows
      rw [visit_cons, hrows, hrow, Fault.liftM_some, ok_bind]
      exact if_congr (not_lt.symm.trans (not_congr hspanned.symm)) rfl rfl

theorem cuts_agree_chain :
    Hypergraph.chain.Reachable ∧ CostModel.standard.Admits Hypergraph.chain #[0, 0, 1] ∧
      CostModel.standard.cutHyperedges Hypergraph.chain #[0, 0, 1] = .ok [1] ∧
      CostModel.standard.netDegrees Hypergraph.chain #[0, 0, 1] = .ok #[#[2, 0], #[1, 1]] ∧
      (0 ∈ [1] ↔ 1 < Degrees.spanned #[2, 0]) ∧ (1 ∈ [1] ↔ 1 < Degrees.spanned #[1, 1]) ∧
      (∃ u ∈ Hypergraph.chain.pins 1, ∃ v ∈ Hypergraph.chain.pins 1,
        Solution.blockOf #[0, 0, 1] u ≠ Solution.blockOf #[0, 0, 1] v) ∧
      CostModel.standard.visit Hypergraph.chain 5 #[] [0]
          ⟨.recomputed .standard .chain #[0, 0, 1], 0, 0, [], none⟩
        = .ok ⟨.recomputed .standard .chain #[0, 0, 1], 0, 0, [], none⟩ := by
  have h : CostModel.standard.Admits Hypergraph.chain #[0, 0, 1] := checkSolution_eq_ok.mp rfl
  have hdegrees : CostModel.standard.netDegrees Hypergraph.chain #[0, 0, 1]
      = .ok #[#[2, 0], #[1, 1]] := by
    decide +kernel
  obtain ⟨cut, rows, hcut, hrows, _, _, _, hagree⟩ := cuts_agree Hypergraph.reachable_chain h
  obtain rfl : [1] = cut := Except.ok.inj hcut
  obtain rfl := Except.ok.inj (hdegrees.symm.trans hrows)
  obtain ⟨whole, hwhole, _, _, _, hkept, _, hvisit⟩ := hagree 0 (by decide)
  obtain ⟨split, hsplit, _, _, _, hdivided, hapart, _⟩ := hagree 1 (by decide)
  obtain rfl : #[2, 0] = whole := Option.some.inj hwhole
  obtain rfl : #[1, 1] = split := Option.some.inj hsplit
  refine ⟨Hypergraph.reachable_chain, h, rfl, hdegrees, hkept, hdivided, hapart.mp (by decide), ?_⟩
  rw [hvisit 5 #[] _ [] (by decide +kernel), if_pos (by decide)]
  rfl

end CostModel

end CircuitPartition
